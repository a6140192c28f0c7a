import Xaprun.Proofs.Turns

/-! `shutdown` stops the server. It writes one byte to the nudge socket, and every pass of the main
loop brings the main thread closer to that byte, whatever the clients send and the workers do
meanwhile. -/

namespace Xaprun

open Frames Runs

namespace Server

variable {write : Writer} {capacity : ℕ} {useStdio : Bool} {s s' : Server} {a : Act} {as : List Act}

/-- No signal interrupts `select`. What `select` has reported of the nudge socket is there to be
read. -/
def Proceeding (_ : Server) : Act → Prop
  | .interrupted => False
  | .readNudge n => 0 < n
  | _ => True

/-- The byte of `shutdown` is in the nudge socket, or the main loop has returned. -/
def ToldToStop (s : Server) : Prop := .S ∈ s.nudge ∨ ended s.main = true

theorem toldToStop_step (h : s.step write capacity a = some s') (ht : ToldToStop s) :
    ToldToStop s' := by
  cases moves_of_step h with
  | quiet | respond => exact ht
  | nudged | shutdown => exact ht.imp_left (List.mem_append_left _)
  | leave | readShutdown | stop | join => exact .inr rfl
  | reap _ _ hmain =>
    right
    rcases hmain with rfl | rfl <;> rfl
  | joined => exact ht
  | loop hm | interrupted hm | selectNudge hm | selectConns hm | dispatchResponses hm | connSkip hm
  | connRead hm
  | connWrite hm | endPass hm | answer hm | handOver hm | endDispatch hm =>
    rw [ToldToStop, hm] at ht
    exact .inl (ht.resolve_right (by simp [ended]))
  | writeNudge hm =>
    rw [ToldToStop, hm] at ht
    exact .inl (List.mem_append_left _ (ht.resolve_right (by simp [ended])))
  | @readNudge n _ hm _ hS =>
    rw [ToldToStop, hm] at ht
    have hmem := ht.resolve_right (by simp [ended])
    rw [← List.take_append_drop n s.nudge] at hmem
    exact .inl ((List.mem_append.mp hmem).resolve_left hS)

theorem toldToStop_of_run {ok : Server → Act → Prop}
    (h : Run (step write capacity) ok (init useStdio) as s)
    (hs : .shutdown ∈ as) : ToldToStop s := by
  induction h with
  | nil => cases hs
  | snoc _ _ hstep ih =>
    rcases List.mem_append.mp hs with hs | hs
    · exact toldToStop_step hstep (ih hs)
    · obtain rfl := List.mem_singleton.mp hs
      obtain ⟨-, hstep⟩ := Option.ite_none_right_eq_some.mp hstep
      obtain rfl := Option.some.inj hstep
      exact .inl (List.mem_append_right _ (List.mem_singleton_self _))

/-! What lies before the byte. -/

/-- The bytes of the nudge socket up to that of `shutdown`, and whether `select` has reported them.
-/
def ahead (s : Server) : ℕ :=
  match s.main with
  | .stopping | .stopped | .joining | .finished => 0
  | .reading _ => 2 * s.nudge.idxOf .S + 1
  | _ => 2 * s.nudge.idxOf .S + 2

theorem idxOf_drop {nudge : List Outbox.Nudge} {n : ℕ} (hn : 0 < n) (hne : nudge ≠ [])
    (hS : .S ∉ nudge.take n) :
    (nudge.drop n).idxOf Outbox.Nudge.S < nudge.idxOf .S := by
  have hsplit : (nudge.take n ++ nudge.drop n).idxOf Outbox.Nudge.S =
      (nudge.take n).length + (nudge.drop n).idxOf .S :=
    List.idxOf_append_of_notMem hS
  rw [List.take_append_drop, List.length_take] at hsplit
  have hpos := List.length_pos_of_ne_nil hne
  omega

theorem mem_of_toldToStop (ht : ToldToStop s) (hm : ended s.main = false) : .S ∈ s.nudge :=
  ht.resolve_right (by simp [hm])

theorem ahead_append (t : Outbox.Nudge) (ht : ToldToStop s) (hnudge : s'.nudge = s.nudge ++ [t])
    (hm : s'.main = s.main) :
    ahead s' = ahead s := by
  have hidx : ended s.main = false → s'.nudge.idxOf .S = s.nudge.idxOf .S := fun hended => by
    rw [hnudge, List.idxOf_append_of_mem (mem_of_toldToStop ht hended)]
  unfold ahead
  rw [hm]
  cases hmain : s.main with
  | stopping | stopped | joining | finished => rfl
  | top | select | reading | draining | conns | dispatching | nudging =>
    simp only
    rw [hidx (by rw [hmain]; rfl)]

/-- No step writes before the byte, and each `select` reports it. -/
theorem ahead_step (h : s.step write capacity a = some s') (hok : Proceeding s a)
    (ht : ToldToStop s) :
    ahead s' ≤ ahead s ∧ ∀ readable writable, a = .select readable writable →
      ahead s' < ahead s := by
  cases moves_of_step h with
  | quiet | respond => exact ⟨le_rfl, by simp⟩
  | nudged =>
    refine ⟨(ahead_append .R ht ?_ ?_).le, by simp⟩
    · rfl
    · rfl
  | shutdown =>
    refine ⟨(ahead_append .S ht ?_ ?_).le, by simp⟩
    · rfl
    · rfl
  | interrupted => cases hok
  | leave | readShutdown | stop | join => exact ⟨Nat.zero_le _, by simp⟩
  | joined hm => exact ⟨by simp [ahead, hm], by simp⟩
  | reap _ _ hmain =>
    refine ⟨?_, by simp⟩
    rcases hmain with rfl | rfl <;> exact Nat.zero_le _
  | selectNudge hm =>
    refine ⟨?_, fun _ _ _ => ?_⟩
    · simp [ahead, hm]
    · simp [ahead, hm]
  | selectConns hm hnudge =>
    have hmem := mem_of_toldToStop ht (by rw [hm]; rfl)
    rw [hnudge] at hmem
    cases hmem
  | readNudge hm _ hS =>
    refine ⟨?_, by simp⟩
    have hmem := mem_of_toldToStop ht (by rw [hm]; rfl)
    have hlt := idxOf_drop hok (List.ne_nil_of_mem hmem) hS
    simp only [ahead, hm]
    omega
  | writeNudge hm =>
    refine ⟨?_, by simp⟩
    have hmem := mem_of_toldToStop ht (by rw [hm]; rfl)
    simp only [ahead, hm]
    rw [List.idxOf_append_of_mem hmem]
  | loop hm | dispatchResponses hm | connSkip hm | connRead hm | connWrite hm | endPass hm
  | answer hm | handOver hm
  | endDispatch hm => exact ⟨by simp [ahead, hm], by simp⟩

/-- Before `stop` has returned. -/
structure Halting (write : Writer) (capacity : ℕ) (useStdio : Bool) (s : Server) : Prop where
  reachable : Reachable (step write capacity) free (init useStdio) s
  told : ToldToStop s
  serving : serving s.main = true

theorem Halting.engaged (hi : Halting write capacity useStdio s) : Engaged s :=
  (sane_of_reachable hi.reachable).engaged hi.serving

theorem Halting.step (hi : Halting write capacity useStdio s) (hok : Proceeding s a)
    (h : s.step write capacity a = some s') : Ending write capacity useStdio s' ∨
      Halting write capacity useStdio s' ∧
        Sooner (ahead s', turn capacity s') (ahead s, turn capacity s) := by
  have hr := hi.reachable.next trivial h
  obtain ⟨hle, hselect⟩ := ahead_step h hok hi.told
  have hinterrupted : a ≠ .interrupted := by
    rintro rfl
    exact hok
  rcases sooner_step h hi.serving hi.engaged.workers hinterrupted hle hselect
    with hstopped | ⟨hserving, hsooner⟩
  · exact .inl ⟨hr, .inl hstopped⟩
  · exact .inr ⟨⟨hr, toldToStop_step h hi.told, hserving⟩, hsooner⟩

/-! Something can move. -/

theorem Emptying.proceeding (h : Emptying s a) : Proceeding s a := by
  cases a with
  | interrupted | readNudge => exact h
  | thread | shutdown | loop | select | dispatchResponses | connRead | connWrite | endPass | execute
  | writeNudge
  | endDispatch | stop | join | joined | reap => trivial

/-- `stop` takes the workers away whatever they do. -/
theorem stop_isSome (write : Writer) (capacity : ℕ) (hi : Engaged s) (hm : s.main = .stopping) :
    ∃ s', s.step write capacity .stop = some s' := by
  have hagree : WorkerPool.Agree s.workers.pool :=
    (Workers.sound_of_reachable hi.workers.reachable).agree
  obtain ⟨ws, pool, hp, -⟩ := WorkerPool.stop_stopped hagree
  have hstop : s.workers.step .stop = some { s.workers with
      pool, threads := Workers.stopAll s.workers.threads ws } := by
    simp [Workers.step, Workers.stop, hi.workers.joining, hp]
  exact ⟨_, by rw [step, if_pos hm, hstop]; rfl⟩

theorem looping_of_serving (h : serving s.main = true) (hstopping : s.main ≠ .stopping) :
    ended s.main = false := by
  cases hm : s.main with
  | top | select | reading | draining | conns | dispatching | nudging => rfl
  | stopping => exact absurd hm hstopping
  | stopped | joining | finished =>
    rw [hm] at h
    cases h

theorem Halting.moves (hi : Halting write capacity useStdio s) :
    Broken capacity s ∨ ∃ a s', Proceeding s a ∧ s.step write capacity a = some s' := by
  by_cases hstopping : s.main = .stopping
  · obtain ⟨s', hs⟩ := stop_isSome write capacity hi.engaged hstopping
    exact .inr ⟨.stop, s', trivial, hs⟩
  · have hlooping := looping_of_serving hi.serving hstopping
    have hmoves : Deadlocked capacity s ∨ ∃ a s', Emptying s a ∧ s.step write capacity a =
        some s' := by
      by_cases hm : s.main = .select
      · exact .inr (select_returns hm []
          (.inl (List.ne_nil_of_mem (mem_of_toldToStop hi.told hlooping))))
      · rcases loop_moves hi.reachable hlooping hm with hdead | ⟨a, s', ha, hs⟩
        · exact .inl hdead
        · exact .inr ⟨a, s', ha.elim .of_internal .of_visiting, hs⟩
    rcases hmoves with hdead | ⟨a, s', hok, hs⟩
    · exact .inl (.inr hdead)
    · exact .inr ⟨a, s', hok.proceeding, hs⟩

/-- `stop` returns, or the main thread waits for room in the nudge socket before that. -/
theorem Halting.ends (hi : Halting write capacity useStdio s) :
    Inevitable (Server.step write capacity) Proceeding
      (fun s' => Ending write capacity useStdio s' ∨ Broken capacity s') s := by
  refine inevitable_of_measure sooner_wf (fun s => (ahead s, turn capacity s))
    (Halting write capacity useStdio) (fun s hi => ?_)
    (fun s a s' hi hok hs => ?_) s hi
  · exact hi.moves.imp_left .inr
  · exact (hi.step hok hs).imp_left .inl

theorem proceeding_of_ending (hi : Ending write capacity useStdio s)
    (h : s.step write capacity a = some s') :
    Proceeding s a := by
  cases a with
  | interrupted | readNudge =>
    have hs := serving_before (moves_of_step h) rfl
    rcases hi.main with hm | hm <;> rw [hm] at hs <;> cases hs
  | thread | shutdown | loop | select | dispatchResponses | connRead | connWrite | endPass | execute
  | writeNudge
  | endDispatch | stop | join | joined | reap => trivial

/-- After a call of `shutdown` the server stops, in whatever order its threads and the main loop
take their steps and whatever the clients do: after finitely many steps `run` is about to return and
nothing is left of the workers. Only a report that the pool does not accept, or a socket with no
room for a byte that must be written, keeps it from that. -/
theorem shutdown_stops (h : Run (step write capacity) free (init useStdio) as s)
    (hs : .shutdown ∈ as) :
    Inevitable (step write capacity) Proceeding (fun s' => Over s' ∨ Broken capacity s') s := by
  have hr : Reachable (step write capacity) free (init useStdio) s := ⟨as, h⟩
  have hreturns : ∀ s, Ending write capacity useStdio s ∨ Broken capacity s →
      Inevitable (step write capacity) Proceeding (fun s' => Over s' ∨ Broken capacity s') s := by
    rintro s (hi | hbroken)
    · exact hi.returns fun _ _ _ => proceeding_of_ending
    · exact .now (.inr hbroken)
  cases hserving : serving s.main with
  | true =>
    have hi : Halting write capacity useStdio s := ⟨hr, toldToStop_of_run h hs, hserving⟩
    exact hi.ends.trans hreturns
  | false =>
    cases hm : s.main with
    | stopped => exact hreturns s (.inl ⟨hr, .inl hm⟩)
    | joining => exact hreturns s (.inl ⟨hr, .inr hm⟩)
    | finished => exact .now (.inl ((parted_of_reachable hr).over hm))
    | top | select | reading | draining | conns | dispatching | nudging | stopping =>
      rw [hm] at hserving
      cases hserving

/-- The server is told to stop with two messages for a worker, the second of them not yet handed
over. -/
def shutdownAtWork : List Act :=
  [.loop, .select [0] [], .connRead (some (text "15 0 Gdb/a 5 0 Sok15 1 Gdb/a 5 0 Sok")),
    .execute 1,
    .thread (.enter 1), .thread (.receive 1), .shutdown]

theorem shutdown_stops_atWork :
    ∃ s, exec (step fastWriter 4) free (init true) shutdownAtWork = some s ∧
    (pending s.main).length = 1 ∧ s.workers.threads.toList.length = 1 ∧
    Inevitable (step fastWriter 4) Proceeding (fun s' => Over s' ∨ Broken 4 s') s := by
  have hrun : ∃ s, exec (step fastWriter 4) free (init true) shutdownAtWork = some s ∧
      (pending s.main).length = 1 ∧ s.workers.threads.toList.length = 1 :=
        exists_of_exec (by decide +kernel)
  obtain ⟨s, hs, hpending, hthreads⟩ := hrun
  exact ⟨s, hs, hpending, hthreads, shutdown_stops (run_of_exec hs) (by decide)⟩

end Server

end Xaprun
