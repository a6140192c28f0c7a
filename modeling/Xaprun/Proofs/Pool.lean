import Xaprun.Sanity.Pool

/-! The representation invariant of the pool, under any use of its interface. The three
places of a worker follow the life of its thread: current or exiting until it has called
`worker_exited`, exited from then on, and nowhere before `new` and after `delete`. -/

namespace Xaprun.PoolUse

open Frames WorkerPool Runs

variable {s s' : State} {op : Op} {w : Ptr}

/-- The places of a worker, for each status of its thread. -/
def Fits (current exiting exited : Prop) : Option Status → Prop
  | none => ¬ current ∧ ¬ exiting ∧ ¬ exited
  | some .fresh | some .running => (¬ current ↔ exiting) ∧ ¬ exited
  | some .left | some .ended => ¬ current ∧ ¬ exiting ∧ exited

def FitsAt (s : State) (w : Ptr) : Prop :=
  Fits (w ∈ s.pool.workers) (w ∈ s.pool.exitingWorkers) (w ∈ s.pool.exitedWorkers)
    (s.threads.find w)

structure Sound (s : State) : Prop where
  agree : Agree s.pool
  nodup : s.pool.exitedWorkers.Nodup
  fits : ∀ w, FitsAt s w

theorem sound_init : Sound init :=
  ⟨agree_init, List.nodup_nil, fun w => by simp [FitsAt, Fits, init, WorkerPool.init]⟩

theorem Sound.fresh (h : Sound s) (hw : w ∉ s.threads) :
    w ∉ s.pool.workers ∧ w ∉ s.pool.exitingWorkers ∧ w ∉ s.pool.exitedWorkers := by
  have := h.fits w
  simpa [FitsAt, Fits, SortedMap.not_mem_iff.mp hw] using this

theorem Sound.current (h : Sound s) (hw : w ∈ s.pool.workers) :
    w ∉ s.pool.exitingWorkers ∧ w ∉ s.pool.exitedWorkers ∧
      (s.threads.find w = some .fresh ∨ s.threads.find w = some .running) := by
  have hf := h.fits w
  unfold FitsAt at hf
  cases ht : s.threads.find w with
  | none => simp [Fits, ht, hw] at hf
  | some st => cases st <;> simp_all [Fits]

theorem Sound.represented (h : Sound s) : Represented s where
  byGroup := h.agree
  oneGroup w g g' hg hg' := by
    obtain ⟨d, hd, rfl⟩ := (h.agree w g).mpr hg
    obtain ⟨d', hd', rfl⟩ := (h.agree w g').mpr hg'
    rw [hd] at hd'
    cases hd'
    rfl
  disjoint w := by
    have hf := h.fits w
    unfold FitsAt at hf
    cases ht : s.threads.find w with
    | none => simp_all [Fits]
    | some st => cases st <;> simp_all [Fits] <;> tauto
  nodup := h.nodup
  placed w hw := by
    have hf := h.fits w
    unfold FitsAt at hf
    obtain ⟨st, ht⟩ := SortedMap.mem_iff_exists.mp hw
    cases st <;> simp_all [Fits] <;> tauto

/-! One step. -/

theorem sound_add {st : Status} {p : WorkerPool} (h : Sound s) (hw : w ∉ s.threads)
    (hst : st = .fresh ∨ st = .running)
    (ha : Agree p) (hp : ∀ w', w' ∈ p.workers ↔ w' = w ∨ w' ∈ s.pool.workers)
    (hx : p.exitingWorkers = s.pool.exitingWorkers) (hd : p.exitedWorkers = s.pool.exitedWorkers) :
    Sound { s with pool := p, threads := s.threads.insert w st } := by
  refine ⟨ha, by simpa only [hd] using h.nodup, fun w' => ?_⟩
  have hf := h.fits w'
  simp only [FitsAt, hp, hx, hd, SortedMap.find_insert_new (SortedMap.not_mem_iff.mp hw)] at hf ⊢
  by_cases hw' : w' = w
  · subst hw'
    obtain ⟨-, hne, hnd⟩ := h.fresh hw
    rcases hst with rfl | rfl <;> simp [Fits, hne, hnd]
  · simpa [hw'] using hf

theorem sound_counted {p : WorkerPool} (h : Sound s) (ha : Agree p)
    (hp : ∀ w, w ∈ p.workers ↔ w ∈ s.pool.workers) (hx : p.exitingWorkers = s.pool.exitingWorkers)
    (hd : p.exitedWorkers = s.pool.exitedWorkers) : Sound { s with pool := p } :=
  ⟨ha, by simpa only [hd] using h.nodup, fun w => by
    have hf := h.fits w
    simpa only [FitsAt, hp, hx, hd] using hf⟩

theorem sound_exit (h : Sound s) (hw : w ∈ s.pool.workers) :
    Sound { s with pool := s.pool.requestExit w } := by
  have hm := moveToExiting_moved h.agree w
  refine ⟨hm.agree, by simpa only [requestExit, hm.exited] using h.nodup, fun w' => ?_⟩
  have hf := h.fits w'
  simp only [FitsAt, requestExit, hm.workers, hm.exiting, hm.exited, SortedMap.mem_erase,
    SortedMap.mem_insert] at hf ⊢
  by_cases hw' : w' = w
  · subst hw'
    obtain ⟨hne, hnd, hst | hst⟩ := h.current hw <;> simp [Fits, hst, hnd]
  · simpa [hw'] using hf

theorem sound_stop {ws : List Ptr} {p : WorkerPool} (h : Sound s)
    (hst : s.pool.stop = some (ws, p)) :
    Sound { s with pool := p } := by
  have hs := stopped_of_stop h.agree hst
  refine ⟨hs.agree, by simpa only [hs.exited] using h.nodup, fun w => ?_⟩
  have hf := h.fits w
  simp only [FitsAt, hs.workers, hs.exiting, hs.exited] at hf ⊢
  cases ht : s.threads.find w with
  | none => simp_all [Fits]
  | some st => cases st <;> simp_all [Fits] <;> tauto

theorem sound_exited (h : Sound s) (ht : s.threads.find w = some .running) :
    Sound { s with
      pool := s.pool.workerExited w
      threads := s.threads.modify w fun _ => .left } := by
  have he := workerExited_exited h.agree w
  have hw := h.fits w
  simp only [FitsAt, ht, Fits] at hw
  refine ⟨he.agree, ?_, fun w' => ?_⟩
  · simp only [he.exited]
    exact List.nodup_append.mpr ⟨h.nodup, by simp, by
      intro a ha b hb hab
      simp only [List.mem_singleton] at hb
      exact hw.2 (hb ▸ hab ▸ ha)⟩
  · have hf := h.fits w'
    simp only [FitsAt, he.workers, he.exiting, he.exited, SortedMap.mem_erase,
      SortedMap.find_modify] at hf ⊢
    by_cases hw' : w' = w
    · subst hw'
      by_cases hc : w' ∈ s.pool.workers
      · simp_all [Fits]
      · simp [ht, hc, Fits]
    · have hx : (w' ∈ if w ∈ s.pool.workers then s.pool.exitingWorkers
          else s.pool.exitingWorkers.erase w) ↔ w' ∈ s.pool.exitingWorkers := by
        split_ifs <;> simp [hw']
      simpa [hw', hx] using hf

theorem sound_status {st st' : Status} (h : Sound s) (ht : s.threads.find w = some st)
    (hst : ∀ c e d, Fits c e d (some st) → Fits c e d (some st')) :
    Sound { s with threads := s.threads.modify w fun _ => st' } := by
  refine ⟨h.agree, h.nodup, fun w' => ?_⟩
  have hf := h.fits w'
  simp only [FitsAt, SortedMap.find_modify] at hf ⊢
  by_cases hw' : w' = w
  · subst hw'
    rw [ht] at hf
    simpa [ht] using hst _ _ _ hf
  · simpa [hw'] using hf

theorem sound_joined {j : Joining} (h : Sound s) (ht : (s.threads.find w).any Status.joins) :
    Sound ⟨(s.pool.joinErase w).2, if (s.pool.joinErase w).1 then s.threads.erase w else s.threads,
      j⟩ := by
  refine ⟨h.agree.of_eq rfl rfl, h.nodup, fun w' => ?_⟩
  have hf := h.fits w'
  simp only [FitsAt, joinErase, SortedMap.mem_erase, decide_eq_true_eq] at hf ⊢
  by_cases hx : w ∈ s.pool.exitingWorkers
  · simp only [hx, if_true, SortedMap.find_erase]
    by_cases hw' : w' = w
    · subst hw'
      cases hst : s.threads.find w' with
      | none => simp_all [Fits]
      | some st => cases st <;> simp_all [Fits, Status.joins]
    · simpa [hw'] using hf
  · by_cases hw' : w' = w
    · subst hw'; simpa [hx] using hf
    · simpa [hx, hw'] using hf

theorem sound_reap {rest : List Ptr} (h : Sound s) (hl : s.pool.exitedWorkers = w :: rest) :
    Sound { s with pool := { s.pool with
      exitedWorkers := rest }, threads := s.threads.erase w } := by
  have hn := h.nodup
  rw [hl] at hn
  refine ⟨h.agree.of_eq rfl rfl, (List.nodup_cons.mp hn).2, fun w' => ?_⟩
  have hf := h.fits w'
  simp only [FitsAt, hl, List.mem_cons, SortedMap.find_erase] at hf ⊢
  by_cases hw' : w' = w
  · subst hw'
    have hnot : w' ∉ rest := (List.nodup_cons.mp hn).1
    cases hst : s.threads.find w' with
    | none => simp_all [Fits]
    | some st => cases st <;> simp_all [Fits]
  · simpa [hw'] using hf

/-- The operations, one constructor for each thing that can happen. -/
inductive Moves (s : State) : Op → State → Prop
  | added {w : Ptr} {g : Bytes} : w ∉ s.threads →
      Moves s (.addWorker w g) { s with
        pool := s.pool.addWorker w g, threads := s.threads.insert w .fresh }
  | started {w : Ptr} : s.threads.find w = some .fresh →
      Moves s (.start w) { s with threads := s.threads.modify w fun _ => .running }
  | exitRequested {w : Ptr} : s.joining ≠ .exited → w ∈ s.pool.workers →
      Moves s (.requestExit w) { s with pool := s.pool.requestExit w }
  | sent {g : Bytes} {fresh w : Ptr} {pool : WorkerPool} : s.pool.sendToWorker g fresh =
      .ok (w, false, pool) →
      Moves s (.sendToWorker g fresh) { s with pool }
  | created {g : Bytes} {fresh w : Ptr} {pool : WorkerPool} : fresh ∉ s.threads →
      s.pool.sendToWorker g fresh = .ok (w, true, pool) →
      Moves s (.sendToWorker g fresh) { s with pool, threads := s.threads.insert w .running }
  | handled {w : Ptr} {r : Bool} {pool : WorkerPool} : s.threads.find w = some .running →
      s.pool.workerMessageHandled w r = .ok pool →
        Moves s (.workerMessageHandled w r) { s with pool }
  | exited {w : Ptr} : s.joining ≠ .exited → s.threads.find w = some .running →
      Moves s (.workerExited w) { s with
        pool := s.pool.workerExited w
        threads := s.threads.modify w fun _ => .left }
  | ended {w : Ptr} : s.threads.find w = some .left →
      Moves s (.threadEnds w) { s with threads := s.threads.modify w fun _ => .ended }
  | stopped {ws : List Ptr} {pool : WorkerPool} : s.joining ≠ .exited →
      s.pool.stop = some (ws, pool) →
      Moves s .stop { s with pool }
  | join : s.joining = .out → Moves s .join { s with joining := s.pool.joinNext }
  | joined {w : Ptr} : s.joining = .waiting w → (s.threads.find w).any Status.joins →
      Moves s .joined ⟨(s.pool.joinErase w).2,
        if (s.pool.joinErase w).1 then s.threads.erase w else s.threads,
        (s.pool.joinErase w).2.joinNext⟩
  | returned : s.joining = .exited → s.pool.exitedWorkers = [] →
      Moves s .reap { s with joining := .out }
  | reaped {w : Ptr} {rest : List Ptr} : s.joining = .exited → s.pool.exitedWorkers = w :: rest →
      (s.threads.find w).any Status.joins →
      Moves s .reap { s with pool := { s.pool with
        exitedWorkers := rest }, threads := s.threads.erase w }

theorem moves_of_step (h : step s op = some s') : Moves s op s' := by
  cases op with
  | addWorker worker group =>
    simp only [step] at h
    split_ifs at h with hc
    obtain rfl := Option.some.inj h
    exact .added hc.2
  | start worker =>
    simp only [step] at h
    split_ifs at h with hc
    obtain rfl := Option.some.inj h
    exact .started hc.2
  | requestExit worker =>
    simp only [step] at h
    split_ifs at h with hc
    obtain rfl := Option.some.inj h
    exact .exitRequested hc.1 hc.2
  | sendToWorker group fresh =>
    simp only [step] at h
    split_ifs at h with hc
    split at h
    · simp at h
    · rename_i hs
      obtain rfl := Option.some.inj h
      exact .sent hs
    · rename_i hs
      obtain rfl := Option.some.inj h
      exact .created hc.2 hs
  | workerMessageHandled worker readyToExit =>
    simp only [step] at h
    split_ifs at h with hc
    split at h
    · simp at h
    · rename_i hs
      obtain rfl := Option.some.inj h
      exact .handled hc.2 hs
  | workerExited worker =>
    simp only [step] at h
    split_ifs at h with hc
    obtain rfl := Option.some.inj h
    exact .exited hc.1 hc.2
  | threadEnds worker =>
    simp only [step] at h
    split_ifs at h with hc
    obtain rfl := Option.some.inj h
    exact .ended hc
  | stop =>
    simp only [step] at h
    split_ifs at h with hc
    obtain ⟨⟨ws, p⟩, hst, rfl⟩ := Option.map_eq_some_iff.mp h
    exact .stopped hc hst
  | join =>
    simp only [step] at h
    split_ifs at h with hc
    obtain rfl := Option.some.inj h
    exact .join hc
  | joined =>
    simp only [step] at h
    split at h
    · rename_i hj
      obtain ⟨hc, h⟩ := Option.ite_none_right_eq_some.mp h
      obtain rfl := Option.some.inj h
      exact .joined hj hc
    · simp at h
  | reap =>
    simp only [step] at h
    split_ifs at h with hj
    split at h
    · rename_i hl
      obtain rfl := Option.some.inj h
      exact .returned hj hl
    · rename_i hl
      split_ifs at h with hc
      obtain rfl := Option.some.inj h
      exact .reaped hj hl hc

theorem sound_moves (h : Moves s op s') (hi : Sound s) : Sound s' := by
  cases h with
  | @added w g hw =>
    exact sound_add hi hw (.inl rfl) (hi.agree.addWorker (hi.fresh hw).1 g)
      (fun _ => mem_addWorker) rfl rfl
  | started ht => exact sound_status hi ht fun _ _ _ => id
  | exitRequested _ hw => exact sound_exit hi hw
  | sent hs =>
    obtain ⟨-, -, rfl⟩ | ⟨hf, -⟩ := sendToWorker_ok hs
    · exact sound_counted hi hi.agree.countMessage (fun _ => mem_countMessage) rfl rfl
    · cases hf
  | @created g _ _ _ hw hs =>
    obtain ⟨hf, -⟩ | ⟨-, rfl, rfl⟩ := sendToWorker_ok hs
    · cases hf
    · exact sound_add hi hw (.inr rfl) (hi.agree.addWorker (hi.fresh hw).1 g).countMessage
        (fun _ => mem_countMessage.trans mem_addWorker) rfl rfl
  | handled _ hs =>
    obtain ⟨d, -, -, rfl⟩ := workerMessageHandled_ok hs
    exact sound_counted hi (hi.agree.modify fun _ => rfl) (fun _ => SortedMap.mem_modify) rfl rfl
  | exited _ ht => exact sound_exited hi ht
  | ended ht => exact sound_status hi ht fun _ _ _ => id
  | stopped _ hst => exact sound_stop hi hst
  | join | returned => exact ⟨hi.agree, hi.nodup, hi.fits⟩
  | joined _ hc => exact sound_joined hi hc
  | reaped _ hl => exact sound_reap hi hl

theorem sound_step (h : step s op = some s') (hi : Sound s) :
    Sound s' := sound_moves (moves_of_step h) hi

theorem sound_reachable (h : Reachable step free init s) : Sound s :=
  h.invariant sound_init fun _ _ _ _ hs hi => sound_step hs hi

/-- In every reachable state the collections represent the threads. Hence the search for an
idle worker does not assert, a current worker is removed, and `stop` ends with every former
worker exiting. -/
theorem pool_represented (h : Reachable step free init s) :
    Represented s ∧ (∀ g, ∃ found, s.pool.searchWorker g = .ok found) ∧
    (∀ w ∈ s.pool.workers, (s.pool.removeCurrentWorker w).1 = true) ∧
    ∃ ws q, s.pool.stop = some (ws, q) ∧ q.workers.toList = [] ∧
      ∀ w ∈ s.pool.workers, w ∈ q.exitingWorkers := by
  have hs := sound_reachable h
  obtain ⟨ws, q, hq, hst⟩ := stop_stopped hs.agree
  refine ⟨hs.represented, searchWorker_total hs.agree, fun w hw =>
    (removeCurrentWorker_of_mem hs.agree hw).1,
    ws, q, hq, by simp [hst.workers, SortedMap.empty], fun w hw => (hst.exiting w).mpr (.inl hw)⟩

/-- A second worker is started while the first is busy, and asked to exit. -/
def twoWorkers : List Op :=
  [.sendToWorker (text "search") 1, .sendToWorker (text "search") 2, .requestExit 2, .join,
    .workerMessageHandled 1 true]

theorem pool_represented_twoWorkers : ∃ s, Reachable step free init s ∧
    s.pool.workers.toList = [(1, ⟨text "search", 0, true⟩)] ∧
    s.pool.exitingWorkers.toList = [(2, ())] ∧ s.joining = .waiting 2 ∧ Represented s := by
  obtain ⟨s, hs⟩ : ∃ s, exec step free init twoWorkers = some s := ⟨_, rfl⟩
  have hr : Reachable step free init s := reachable_of_exec hs
  cases hs
  exact ⟨_, hr, rfl, rfl, rfl, (pool_represented hr).1⟩

end Xaprun.PoolUse
