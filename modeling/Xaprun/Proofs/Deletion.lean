import Xaprun.Proofs.Pool

/-! The deletion of the worker threads. Whatever the workers do while `join` waits for one of
them, each thread is deleted once, after it has ended and been joined, and `stop` and `join`
leave none. -/

namespace Xaprun.PoolUse

open Frames WorkerPool Runs Lifecycle

variable {s s' s₀ s₁ : State} {op : Op} {w : Ptr} {live live' : Ptr → Option Phase}
  {es es₀ : List Event}

/-- The phases that a thread may be in. -/
def Matches : Option Status → Option Phase → Prop
  | none, none => True
  | some .fresh, some .created => True
  | some .running, some .running | some .left, some .running => True
  | some .ended, some .ended | some .ended, some .joined => True
  | _, _ => False

def Agrees (live : Ptr → Option Phase) (s : State) :
    Prop := ∀ w, Matches (s.threads.find w) (live w)

theorem Agrees.isSome_iff (h : Agrees live s) (w : Ptr) : (live w).isSome ↔ w ∈ s.threads := by
  have hw := h w
  rw [SortedMap.mem_def]
  cases ht : s.threads.find w with
  | none =>
    cases hl : live w with
    | none => simp
    | some p => simp [Matches, ht, hl] at hw
  | some st =>
    cases hl : live w with
    | none => simp [Matches, ht, hl] at hw
    | some p => simp

theorem Agrees.none (h : Agrees live s) (hw : w ∉ s.threads) : live w = none :=
  Option.not_isSome_iff_eq_none.mp fun hsome => hw ((h.isSome_iff w).mp hsome)

theorem Agrees.fresh (h : Agrees live s) (ht : s.threads.find w = some .fresh) :
    live w = some .created := by
  have hw := h w
  rw [ht] at hw
  cases hl : live w with
  | none => simp [Matches, hl] at hw
  | some p => cases p <;> simp_all [Matches]

theorem Agrees.running (h : Agrees live s)
    (ht : s.threads.find w = some .running ∨ s.threads.find w = some .left) :
    live w = some .running := by
  have hw := h w
  cases hl : live w with
  | none => rcases ht with ht | ht <;> simp [Matches, ht, hl] at hw
  | some p => rcases ht with ht | ht <;> cases p <;> simp_all [Matches]

theorem Agrees.ended (h : Agrees live s) (ht : s.threads.find w = some .ended) :
    live w = some .ended ∨ live w = some .joined := by
  have hw := h w
  rw [ht] at hw
  cases hl : live w with
  | none => simp [Matches, hl] at hw
  | some p => cases p <;> simp_all [Matches]

theorem Agrees.of_eq (h : Agrees live s) (heq : s'.threads = s.threads) : Agrees live s' := by
  intro w
  rw [heq]
  exact h w

theorem Agrees.update {o : Option Status} {p : Option Phase} (h : Agrees live s) (hp : Matches o p)
    (heq : ∀ v, s'.threads.find v = if v = w then o else s.threads.find v) :
    Agrees (Function.update live w p) s' := by
  intro v
  rw [heq]
  by_cases hv : v = w
  · subst hv
    rw [if_pos rfl, Function.update_self]
    exact hp
  · rw [if_neg hv, Function.update_of_ne hv]
    exact h v

theorem accept_eq {k : Kind} {p : Option Phase} (h : next k (live w) = some p) :
    accept live ⟨k, w⟩ = some (Function.update live w p) := by simp [accept, h]

theorem acceptAll_singleton {k : Kind} {p : Option Phase} (h : next k (live w) = some p) :
    acceptAll live [⟨k, w⟩] = some (Function.update live w p) := by simp [acceptAll, accept_eq h]

/-! What the collections say of the threads in them. -/

theorem Sound.live_of_exiting (h : Sound s) (hw : w ∈ s.pool.exitingWorkers) : w ∈ s.threads := by
  by_contra hn
  exact (h.fresh hn).2.1 hw

theorem Sound.live_of_exited (h : Sound s) (hw : w ∈ s.pool.exitedWorkers) : w ∈ s.threads := by
  by_contra hn
  exact (h.fresh hn).2.2 hw

theorem Sound.live_of_current (h : Sound s) (hw : w ∈ s.pool.workers) : w ∈ s.threads := by
  by_contra hn
  exact (h.fresh hn).1 hw

theorem mem_exiting_of_joinNext {p : WorkerPool} (h : p.joinNext = .waiting w) :
    w ∈ p.exitingWorkers := by
  unfold joinNext at h
  split at h
  · cases h
  · rename_i hl
    cases h
    exact SortedMap.mem_of_find (SortedMap.find_head hl)

theorem exiting_of_joinNext {p : WorkerPool} (h : p.joinNext = .exited) :
    p.exitingWorkers.toList = [] := by
  unfold joinNext at h
  split at h
  · assumption
  · cases h

theorem Sound.live_of_joinNext (h : Sound s) (hw : joinTarget s.pool s.pool.joinNext = some w) :
    w ∈ s.threads := by
  cases hj : s.pool.joinNext with
  | out => simp [hj, joinTarget] at hw
  | waiting v =>
    obtain rfl : v = w := by simpa [hj, joinTarget] using hw
    exact h.live_of_exiting (mem_exiting_of_joinNext hj)
  | exited =>
    rw [hj] at hw
    exact h.live_of_exited (List.mem_of_mem_head? hw)

theorem acceptAll_liveUses {ws : List Ptr} (hm : Agrees live s) (h : ∀ w ∈ ws, w ∈ s.threads) :
    acceptAll live (uses ws) = some live :=
  acceptAll_uses fun w hw => (hm.isSome_iff w).mpr (h w hw)

theorem find_setStatus {st : Status} (ht : s.threads.find w = some st) (st' : Status) (v : Ptr) :
    (s.threads.modify w fun _ => st').find v = if v = w then some st' else s.threads.find v := by
  rw [SortedMap.find_modify]
  split_ifs with hv
  · rw [hv, ht]
    rfl
  · rfl

theorem status_of_joins (h : (s.threads.find w).any Status.joins) :
    s.threads.find w = some .fresh ∨ s.threads.find w = some .ended := by
  cases ht : s.threads.find w with
  | none => simp [ht] at h
  | some st => cases st <;> simp_all [Status.joins]

theorem accept_joined (hs : Sound s) (hm : Agrees live s)
    (h : (s.threads.find w).any Status.joins) :
    ∃ live', acceptAll live ([⟨.join, w⟩] ++
        if (s.pool.joinErase w).1 then [⟨.delete, w⟩] else []) = some live' ∧
      ∀ joining, Agrees live' ⟨(s.pool.joinErase w).2,
        if (s.pool.joinErase w).1 then s.threads.erase w else s.threads, joining⟩ := by
  rw [acceptAll_append]
  by_cases hw : w ∈ s.pool.exitingWorkers
  · -- a thread that is still exiting has never been started
    have hdel : (s.pool.joinErase w).1 = true := decide_eq_true hw
    have hfresh : s.threads.find w = some .fresh := by
      rcases status_of_joins h with ht | ht
      · exact ht
      · have hfits := hs.fits w
        simp [FitsAt, Fits, ht, hw] at hfits
    have hjoin : acceptAll live [⟨.join, w⟩] = some (Function.update live w (some .created)) :=
      acceptAll_singleton (by rw [hm.fresh hfresh]; rfl)
    rw [hdel, hjoin, Option.bind_some, if_pos rfl]
    refine ⟨_, acceptAll_singleton (p := none) ?_, fun joining => ?_⟩
    · rw [Function.update_self]
      rfl
    · rw [Function.update_idem]
      exact hm.update (o := none) trivial fun v => SortedMap.find_erase _ _ _
  · have hdel : (s.pool.joinErase w).1 = false := decide_eq_false hw
    simp only [hdel, Bool.false_eq_true, if_false]
    rcases status_of_joins h with ht | ht
    · have hjoin : acceptAll live [⟨.join, w⟩] = some (Function.update live w (some .created)) :=
        acceptAll_singleton (by rw [hm.fresh ht]; rfl)
      refine ⟨_, by rw [hjoin]; rfl, fun joining => ?_⟩
      rw [← hm.fresh ht, Function.update_eq_self]
      exact hm
    · have hjoin : acceptAll live [⟨.join, w⟩] = some (Function.update live w (some .joined)) := by
        apply acceptAll_singleton
        rcases hm.ended ht with hl | hl <;> rw [hl] <;> rfl
      refine ⟨_, by rw [hjoin]; rfl, fun joining =>
        hm.update (o := some .ended) (p := some .joined) trivial fun v => ?_⟩
      by_cases hv : v = w
      · rw [if_pos hv, hv]
        exact ht
      · rw [if_neg hv]

theorem accept_ended (hm : Agrees live s) (ht : s.threads.find w = some .ended) :
    acceptAll live [⟨.join, w⟩, ⟨.delete, w⟩] = some (Function.update live w none) := by
  have hjoin : accept live ⟨.join, w⟩ = some (Function.update live w (some .joined)) := by
    apply accept_eq
    rcases hm.ended ht with hl | hl <;> rw [hl] <;> rfl
  have hdelete : acceptAll (Function.update live w (some .joined)) [⟨.delete, w⟩] =
      some (Function.update (Function.update live w (some .joined)) w none) :=
    acceptAll_singleton (by rw [Function.update_self]; rfl)
  rw [acceptAll, hjoin, Option.bind_some, hdelete, Function.update_idem]

theorem accept_reaped (hs : Sound s) (hm : Agrees live s) (hw : w ∈ s.pool.exitedWorkers)
    (h : (s.threads.find w).any Status.joins) :
    acceptAll live [⟨.join, w⟩, ⟨.delete, w⟩] = some (Function.update live w none) := by
  apply accept_ended hm
  rcases status_of_joins h with ht | ht
  · have hfits := hs.fits w
    simp [FitsAt, Fits, ht, hw] at hfits
  · exact ht

theorem accept_moves (h : Moves s op s') (hs : Sound s) (hm : Agrees live s) :
    ∃ live', acceptAll live (emit s op) = some live' ∧ Agrees live' s' := by
  have hs' := sound_moves h hs
  cases h with
  | @added w g hw =>
    refine ⟨_, acceptAll_singleton (p := some .created) ?_, hm.update (o := some .fresh) trivial
      fun v => ?_⟩
    · rw [hm.none hw]
      rfl
    · exact SortedMap.find_insert_new (SortedMap.not_mem_iff.mp hw) _ _
  | @started w ht =>
    refine ⟨_, acceptAll_singleton (p := some .running) ?_,
      hm.update (o := some .running) trivial ?_⟩
    · rw [hm.fresh ht]
      rfl
    · exact find_setStatus ht .running
  | exitRequested _ hw =>
    refine ⟨live, acceptAll_liveUses hm ?_, hm⟩
    simpa using hs.live_of_current hw
  | @sent g fresh w pool hp =>
    obtain ⟨-, ⟨d, hd, -⟩, -⟩ | ⟨hf, -⟩ := sendToWorker_ok hp
    · refine ⟨live, ?_, hm⟩
      simp only [emit, hp]
      apply acceptAll_liveUses hm
      simpa using hs.live_of_current (SortedMap.mem_of_find hd)
    · cases hf
  | @created g fresh w pool hw hp =>
    obtain ⟨hf, -⟩ | ⟨-, rfl, -⟩ := sendToWorker_ok hp
    · cases hf
    · have hcreate : accept live ⟨.create, w⟩ = some (Function.update live w (some .created)) :=
        accept_eq (by rw [hm.none hw]; rfl)
      have hstart : accept (Function.update live w (some .created)) ⟨.start, w⟩ =
          some (Function.update (Function.update live w (some .created)) w (some .running)) :=
        accept_eq (by rw [Function.update_self]; rfl)
      rw [Function.update_idem] at hstart
      have hagrees : Agrees (Function.update live w (some .running)) { s with
          pool, threads := s.threads.insert w .running } :=
        hm.update (o := some .running) trivial fun v =>
          SortedMap.find_insert_new (SortedMap.not_mem_iff.mp hw) _ _
      refine ⟨_, ?_, hagrees⟩
      simp only [emit, hp, acceptAll, hcreate, hstart, Option.bind_some]
      exact acceptAll_liveUses hagrees
        (List.forall_mem_singleton.mpr (SortedMap.mem_insert.mpr (.inl rfl)))
  | handled ht =>
    refine ⟨live, acceptAll_liveUses hm ?_, hm⟩
    simpa using SortedMap.mem_of_find ht
  | @exited w _ ht =>
    refine ⟨live, acceptAll_liveUses hm ?_, ?_⟩
    · simpa using SortedMap.mem_of_find ht
    · have hupdate : Agrees (Function.update live w (some .running)) { s with
          pool := s.pool.workerExited w
          threads := s.threads.modify w fun _ => .left } :=
        hm.update (o := some .left) trivial (find_setStatus ht .left)
      rw [← hm.running (.inl ht), Function.update_eq_self] at hupdate
      exact hupdate
  | @ended w ht =>
    refine ⟨_, acceptAll_singleton (p := some .ended) ?_, hm.update (o := some .ended) trivial ?_⟩
    · rw [hm.running (.inr ht)]
      rfl
    · exact find_setStatus ht .ended
  | @stopped ws pool _ hstop =>
    refine ⟨live, ?_, hm⟩
    simp only [emit, hstop, Option.elim_some]
    refine acceptAll_liveUses hm fun w hw => hs.live_of_current ?_
    exact ((stopped_of_stop hs.agree hstop).told w).mp hw
  | join =>
    refine ⟨live, acceptAll_liveUses hm fun w hw => ?_, hm⟩
    exact hs.live_of_joinNext (Option.mem_toList.mp hw)
  | @joined w hj hjoins =>
    obtain ⟨live', haccept, hagrees⟩ := accept_joined hs hm hjoins
    refine ⟨live', ?_, hagrees _⟩
    simp only [emit, hj]
    rw [acceptAll_append, haccept, Option.bind_some]
    exact acceptAll_liveUses (hagrees .out) fun v hv =>
      hs'.live_of_joinNext (Option.mem_toList.mp hv)
  | returned _ hl =>
    refine ⟨live, ?_, hm⟩
    simp only [emit, hl]
    rfl
  | @reaped w rest _ hl hjoins =>
    have haccept := accept_reaped hs hm (by rw [hl]; exact List.mem_cons_self) hjoins
    have hagrees : Agrees (Function.update live w none)
        { s with pool := { s.pool with exitedWorkers := rest }, threads := s.threads.erase w } :=
      hm.update (o := none) trivial fun v => SortedMap.find_erase _ _ _
    refine ⟨_, ?_, hagrees⟩
    simp only [emit, hl]
    rw [acceptAll_append, haccept, Option.bind_some]
    refine acceptAll_liveUses hagrees fun v hv => hs'.live_of_exited ?_
    exact List.mem_of_mem_head? (Option.mem_toList.mp hv)

/-- The thread that `join` waits for exists, and in its second loop no worker is exiting. -/
structure Joinable (s : State) : Prop where
  waiting : ∀ w, s.joining = .waiting w → w ∈ s.threads
  exiting : s.joining = .exited → s.pool.exitingWorkers.toList = []

theorem joinable_next (h : Sound s) (hj : s.joining = s.pool.joinNext) : Joinable s := by
  refine ⟨fun w hw => ?_, fun hw => ?_⟩
  · exact h.live_of_exiting (mem_exiting_of_joinNext (hj.symm.trans hw))
  · exact exiting_of_joinNext (hj.symm.trans hw)

theorem joinable_out (hj : s.joining = .out) : Joinable s := by
  refine ⟨fun w hw => ?_, fun hw => ?_⟩
  · rw [hj] at hw
    cases hw
  · rw [hj] at hw
    cases hw

theorem joinable_moves (h : Moves s op s') (hs : Sound s) (hi : Joinable s) : Joinable s' := by
  have hs' := sound_moves h hs
  cases h with
  | added => exact ⟨fun w hw => SortedMap.mem_insert.mpr (.inr (hi.waiting w hw)), hi.exiting⟩
  | started | ended => exact ⟨fun w hw => SortedMap.mem_modify.mpr (hi.waiting w hw), hi.exiting⟩
  | exitRequested hj | stopped hj => exact ⟨hi.waiting, fun hw => absurd hw hj⟩
  | sent hp =>
    obtain ⟨-, -, rfl⟩ | ⟨hf, -⟩ := sendToWorker_ok hp
    · exact ⟨hi.waiting, hi.exiting⟩
    · cases hf
  | created _ hp =>
    obtain ⟨hf, -⟩ | ⟨-, -, rfl⟩ := sendToWorker_ok hp
    · cases hf
    · exact ⟨fun w hw => SortedMap.mem_insert.mpr (.inr (hi.waiting w hw)), hi.exiting⟩
  | handled _ hp =>
    obtain ⟨d, -, -, rfl⟩ := workerMessageHandled_ok hp
    exact ⟨hi.waiting, hi.exiting⟩
  | exited hj =>
    exact ⟨fun w hw => SortedMap.mem_modify.mpr (hi.waiting w hw), fun hw => absurd hw hj⟩
  | join | joined => exact joinable_next hs' rfl
  | returned => exact joinable_out rfl
  | reaped hj =>
    refine ⟨fun w hw => ?_, hi.exiting⟩
    rw [hj] at hw
    cases hw

/-- The events so far are those of orderly lives, and the threads that they leave are those of the
state. -/
structure Recorded (es : List Event) (s : State) : Prop where
  sound : Sound s
  joinable : Joinable s
  lives : ∃ live, acceptAll (fun _ => none) es = some live ∧ Agrees live s

theorem Recorded.step (h : Recorded es s) (hs : step s op = some s') :
    Recorded (es ++ emit s op) s' := by
  have hmoves := moves_of_step hs
  obtain ⟨live, haccept, hagrees⟩ := h.lives
  obtain ⟨live', haccept', hagrees'⟩ := accept_moves hmoves h.sound hagrees
  refine ⟨sound_moves hmoves h.sound, joinable_moves hmoves h.sound h.joinable, live', ?_, hagrees'⟩
  rw [acceptAll_append, haccept, Option.bind_some, haccept']

theorem recorded_init : Recorded [] init :=
  ⟨sound_init, joinable_out rfl, fun _ => none, rfl, fun _ => trivial⟩

theorem empty_moves (h : Moves s op s') (hok : Closing s op) (hs : Sound s)
    (hi : s.pool.workers = .empty) :
    s'.pool.workers = .empty := by
  cases h with
  | added | started | exitRequested | sent | created | stopped => exact hok.elim
  | handled _ hp =>
    obtain ⟨d, hd, -⟩ := workerMessageHandled_ok hp
    rw [hi] at hd
    cases hd
  | @exited w =>
    have heq := (workerExited_exited hs.agree w).workers
    rw [hi, SortedMap.erase_of_not_mem (by simp)] at heq
    exact heq
  | ended | join | joined | returned | reaped => exact hi

theorem empty_of_returned (hs : Sound s) (hi : Joinable s) (hempty : s.pool.workers = .empty)
    (hstep : PoolUse.step s .reap = some s') (hj : s'.joining = .out) :
    s'.pool.exitingWorkers.toList = [] ∧ s'.pool.exitedWorkers = [] ∧ ∀ w, w ∉ s.threads := by
  cases moves_of_step hstep with
  | returned hjoining hl =>
    have hexiting := hi.exiting hjoining
    refine ⟨hexiting, hl, fun w hw => ?_⟩
    rcases hs.represented.placed w hw with hw | hw | hw
    · rw [hempty] at hw
      simp at hw
    · exact SortedMap.toList_eq_nil_iff.mp hexiting w hw
    · rw [hl] at hw
      cases hw
  | reaped hjoining =>
    rw [hjoining] at hj
    cases hj

/-- From any reachable state of the pool, `stop` and then `join`: all along, the threads are
created, used, joined and deleted in order and the thread that `join` turns to exists. When `join`
returns, no worker is exiting or exited, and every thread has been deleted. -/
theorem shutdown_deletes (h₀ : Logged step free emit init es₀ s₀) (hstop : step s₀ .stop = some s₁)
    (h : Logged step Closing emit s₁ es s) :
    (∃ live, acceptAll (fun _ => none) (es₀ ++ emit s₀ .stop ++ es) = some live ∧
      ∀ w, (live w).isSome ↔ w ∈ s.threads) ∧
    (∀ w, joinTarget s.pool s.joining = some w → w ∈ s.threads) ∧
    ∀ s', step s .reap = some s' → s'.joining = .out →
      s'.pool.exitingWorkers.toList = [] ∧ s'.pool.exitedWorkers = [] ∧
        ∀ w, (es₀ ++ emit s₀ .stop ++ es).count ⟨.create, w⟩ =
          (es₀ ++ emit s₀ .stop ++ es).count ⟨.delete, w⟩ := by
  have hrec₀ : Recorded es₀ s₀ :=
    h₀.invariant Recorded recorded_init fun _ _ _ _ _ _ hs hi => hi.step hs
  have hempty₁ : s₁.pool.workers = .empty := by
    cases moves_of_step hstop with
    | stopped _ hp => exact (stopped_of_stop hrec₀.sound.agree hp).workers
  have hboth : Recorded (es₀ ++ emit s₀ .stop ++ es) s ∧ s.pool.workers = .empty := by
    refine h.invariant (fun es s => Recorded (es₀ ++ emit s₀ .stop ++ es) s ∧
      s.pool.workers = .empty) ?_ ?_
    · rw [List.append_nil]
      exact ⟨hrec₀.step hstop, hempty₁⟩
    · intro es s op s' _ hok hs hi
      rw [← List.append_assoc]
      exact ⟨hi.1.step hs, empty_moves (moves_of_step hs) hok hi.1.sound hi.2⟩
  obtain ⟨hrec, hempty⟩ := hboth
  obtain ⟨live, haccept, hagrees⟩ := hrec.lives
  refine ⟨⟨live, haccept, hagrees.isSome_iff⟩, fun w hw => ?_, fun s' hs' hj => ?_⟩
  · cases hj : s.joining with
    | out => simp [hj, joinTarget] at hw
    | waiting v =>
      obtain rfl : v = w := by simpa [hj, joinTarget] using hw
      exact hrec.joinable.waiting v hj
    | exited =>
      rw [hj] at hw
      exact hrec.sound.live_of_exited (List.mem_of_mem_head? hw)
  · obtain ⟨hexiting, hexited, hnone⟩ := empty_of_returned hrec.sound hrec.joinable hempty hs' hj
    refine ⟨hexiting, hexited, fun w => ?_⟩
    have hcount := count_create_add haccept w
    rw [hagrees.none (hnone w)] at hcount
    exact hcount

/-- Two workers, of which one exits while `join` waits for the other. -/
def exitInWindow : List Op :=
  [.join, .workerExited 2, .threadEnds 2, .workerExited 1, .threadEnds 1, .joined, .reap, .reap]

theorem shutdown_deletes_exitInWindow :
    ∃ es₀ s₀ s₁ es s s', Logged step free emit init es₀ s₀ ∧ step s₀ .stop = some s₁ ∧
      Logged step Closing emit s₁ es s ∧ step s .reap = some s' ∧ s'.joining = .out ∧
      (es₀ ++ emit s₀ .stop ++ es).count ⟨.create, 2⟩ = 1 ∧
      (es₀ ++ emit s₀ .stop ++ es).count ⟨.delete, 2⟩ = 1 := by
  have hrun : ∃ es₀ s₀ s₁ es s s',
      trace step free emit init [.sendToWorker (text "search") 1, .sendToWorker (text "search") 2] =
        some (es₀, s₀) ∧
      step s₀ .stop = some s₁ ∧ trace step Closing emit s₁ exitInWindow = some (es, s) ∧
      step s .reap = some s' ∧ s'.joining = .out ∧
          (es₀ ++ emit s₀ .stop ++ es).count ⟨.create, 2⟩ = 1 :=
    ⟨_, _, _, _, _, _, rfl, rfl, rfl, rfl, rfl, by decide⟩
  obtain ⟨es₀, s₀, s₁, es, s, s', h₀, hstop, h, hs', hj, hone⟩ := hrun
  have hlog₀ := logged_of_trace h₀
  have hlog := logged_of_trace h
  obtain ⟨-, -, hreturns⟩ := shutdown_deletes hlog₀ hstop hlog
  obtain ⟨-, -, hcount⟩ := hreturns s' hs' hj
  exact ⟨es₀, s₀, s₁, es, s, s', hlog₀, hstop, hlog, hs', hj, hone, (hcount 2).symm.trans hone⟩

end Xaprun.PoolUse
