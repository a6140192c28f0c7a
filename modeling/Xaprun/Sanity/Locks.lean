import Xaprun.Proofs.Pool
import Xaprun.Spec.Locks

/-! The locks that the threads hold follow from where they are, and the threads with their locks
refine the use of the pool. -/

namespace Xaprun.Locks

open Frames WorkerPool Runs

variable {s s' : State} {a : Act} {w : Ptr} {t t' : Thread} {l : Lock} {pc : MainPc}

/-! The locks that a thread holds. -/

/-- The last lock taken is the first of the list. -/
def MainPc.held : MainPc → List Lock
  | .idle | .sendLock .. | .drainLock | .responseLock _ | .stopLock | .joinLock | .joinWait _
  | .relock _ => []
  | .sending .. | .messageLock .. | .sent | .stopHead | .stopMessageLock _ | .moving _ | .joinHead
  | .erasing _
  | .exitedHead | .exitedWait _ | .deleteLock .. => [.workerlist]
  | .pushing w _ | .stopping w | .deleting w _ => [.message w, .workerlist]
  | .draining | .responding _ => [.outgoing]

def ThreadPc.held (w : Ptr) : ThreadPc → List Lock
  | .handled | .exiting => [.workerlist]
  | .checking => [.message w]
  | .responding _ => [.outgoing]
  | .entering | .handledLock | .messageLock | .idle | .handling _ | .responseLock _ | .exitLock
  | .left | .ended => []

def State.held (s : State) : Tid → List Lock
  | .main => s.main.held
  | .worker w => (s.threads.find w).elim [] fun t => t.pc.held w

def Held (s : State) : Prop := ∀ l t, s.owner l = some t ↔ l ∈ s.held t

section Held

variable {tid : Tid}

theorem Held.kept (h : Held s) (ho : s'.owner = s.owner) (hheld : ∀ tid, s'.held tid = s.held tid) :
    Held s' := by
  intro l tid
  rw [ho, hheld]
  exact h l tid

theorem Held.locked (h : Held s) (hfree : s.owner l = none)
    (ho : s'.owner = Function.update s.owner l (some tid))
    (hself : s'.held tid = l :: s.held tid)
    (hother : ∀ tid', tid' ≠ tid → s'.held tid' = s.held tid') : Held s' := by
  intro l' tid'
  rw [ho]
  by_cases hl : l' = l
  · subst hl
    rw [Function.update_self]
    by_cases ht : tid' = tid
    · subst ht
      rw [hself]
      exact iff_of_true rfl List.mem_cons_self
    · have hnot : l' ∉ s.held tid' := fun hmem => by
        rw [(h l' tid').mpr hmem] at hfree
        cases hfree
      rw [hother tid' ht]
      exact iff_of_false (fun he => ht (Option.some.inj he).symm) hnot
  · rw [Function.update_of_ne hl, h l' tid']
    by_cases ht : tid' = tid
    · subst ht
      rw [hself, List.mem_cons]
      exact (or_iff_right hl).symm
    · rw [hother tid' ht]

theorem Held.unlocked (h : Held s) (ho : s'.owner = Function.update s.owner l none)
    (hself : s.held tid = l :: s'.held tid) (hnot : l ∉ s'.held tid)
    (hother : ∀ tid', tid' ≠ tid → s'.held tid' = s.held tid') : Held s' := by
  intro l' tid'
  rw [ho]
  by_cases hl : l' = l
  · subst hl
    rw [Function.update_self]
    refine iff_of_false (by simp) ?_
    by_cases ht : tid' = tid
    · rw [ht]
      exact hnot
    · rw [hother tid' ht]
      intro hmem
      have howner := (h l' tid).mpr (by rw [hself]; exact List.mem_cons_self)
      rw [(h l' tid').mpr hmem] at howner
      exact ht (Option.some.inj howner)
  · rw [Function.update_of_ne hl, h l' tid']
    by_cases ht : tid' = tid
    · subst ht
      rw [hself, List.mem_cons]
      exact or_iff_right hl
    · rw [hother tid' ht]

end Held

/-! The steps of a worker. -/

def ThreadPc.status : ThreadPc → PoolUse.Status
  | .left => .left
  | .ended => .ended
  | .entering | .handledLock | .handled | .messageLock | .checking | .idle | .handling _
  | .responseLock _
  | .responding _ | .exitLock | .exiting => .running

/-- What a step does with the locks: nothing, or it takes one or lets one go. -/
def LockChange (tid : Tid) (owner owner' : Lock → Option Tid) (held held' : List Lock) : Prop :=
  (owner' = owner ∧ held' = held) ∨
  (∃ l, owner l = none ∧ owner' = Function.update owner l (some tid) ∧ held' = l :: held) ∨
  (∃ l, l ∉ held' ∧ owner' = Function.update owner l none ∧ held = l :: held')

/-- What a step of a worker does with the pool. -/
def PoolChange (w : Ptr) (p q : WorkerPool) (pc pc' : ThreadPc) : Prop :=
  (q = p ∧ pc'.status = pc.status) ∨
  (p.workerMessageHandled w true = .ok q ∧ pc = .handled ∧ pc' = .messageLock) ∨
  (q = p.workerExited w ∧ pc = .exiting ∧ pc' = .left) ∨
  (q = p ∧ pc = .left ∧ pc' = .ended)

theorem Held.change (h : Held s) (tid : Tid)
    (hself : LockChange tid s.owner s'.owner (s.held tid) (s'.held tid))
    (hother : ∀ tid', tid' ≠ tid → s'.held tid' = s.held tid') : Held s' := by
  rcases hself with ⟨ho, hheld⟩ | ⟨l, hfree, ho, hheld⟩ | ⟨l, hnot, ho, hheld⟩
  · apply h.kept ho
    intro tid'
    by_cases ht : tid' = tid
    · rw [ht, hheld]
    · exact hother tid' ht
  · exact h.locked hfree ho hheld hother
  · exact h.unlocked ho hheld hnot hother

structure ThreadMoves (s : State) (w : Ptr) (t : Thread) (s' : State) (t' : Thread) : Prop where
  threads : s'.threads = s.threads.modify w fun _ => t'
  main : s'.main = s.main
  runs : t.pc ≠ .ended
  joined : t'.joined = t.joined
  locks : LockChange (.worker w) s.owner s'.owner (t.pc.held w) (t'.pc.held w)
  pool : PoolChange w s.pool s'.pool t.pc t'.pc

theorem modify_eq (ht : s.threads.find w = some t) (f : Thread → Thread) :
    s.threads.modify w f = s.threads.modify w fun _ => f t := by
  ext1 v
  rw [SortedMap.find_modify, SortedMap.find_modify]
  split_ifs with hv
  · rw [hv, ht]
    rfl
  · rfl

theorem lock_some {tid : Tid} (h : s.lock tid l = some s') :
    s.owner l = none ∧ s' = { s with owner := Function.update s.owner l (some tid) } := by
  obtain ⟨hfree, h⟩ := Option.ite_none_right_eq_some.mp h
  exact ⟨hfree, (Option.some.inj h).symm⟩

theorem ThreadMoves.goes {start : ThreadPc} {f : Thread → Thread} (ht : s.threads.find w = some t)
    (hpc : t.pc = start) (hne : start ≠ .ended) (hj : (f t).joined = t.joined)
    (hheld : (f t).pc.held w = start.held w) (hpool : PoolChange w s.pool s.pool start (f t).pc) :
    ThreadMoves s w t (s.modify w f) (f t) := by
  subst hpc
  exact ⟨modify_eq ht f, rfl, hne, hj, .inl ⟨rfl, hheld⟩, hpool⟩

theorem ThreadMoves.takes {start pc : ThreadPc} (ht : s.threads.find w = some t)
    (hpc : t.pc = start)
    (hne : start ≠ .ended) (h : s.lockThread w l pc = some s')
    (hheld : pc.held w = l :: start.held w)
    (hst : pc.status = start.status) : ThreadMoves s w t s' (t.goto pc) := by
  subst hpc
  obtain ⟨s₁, h₁, rfl⟩ := Option.map_eq_some_iff.mp h
  obtain ⟨hfree, rfl⟩ := lock_some h₁
  exact ⟨modify_eq ht _, rfl, hne, rfl, .inr (.inl ⟨l, hfree, rfl, hheld⟩), .inl ⟨rfl, hst⟩⟩

theorem ThreadMoves.leaves {start : ThreadPc} {f : Thread → Thread} {p : WorkerPool}
    {outgoing : List (ℤ × Bytes)}
    (ht : s.threads.find w = some t) (hpc : t.pc = start) (hne : start ≠ .ended)
    (hj : (f t).joined = t.joined)
    (hheld : start.held w = [l]) (hnone : (f t).pc.held w = [])
    (hpool : PoolChange w s.pool p start (f t).pc) :
    ThreadMoves s w t (({ s with pool := p, outgoing }.modify w f).unlock l) (f t) := by
  subst hpc
  refine ⟨modify_eq ht f, rfl, hne, hj, .inr (.inr ⟨l, ?_, rfl, ?_⟩), hpool⟩
  · rw [hnone]
    exact List.not_mem_nil
  · rw [hheld, hnone]

theorem threadMoves_of_step (ht : s.threads.find w = some t) (h : threadStep s w t = some s') :
    ∃ t', ThreadMoves s w t s' t' := by
  cases hpc : t.pc with
  | entering =>
    simp only [threadStep, hpc] at h
    obtain rfl := Option.some.inj h
    by_cases hm : t.hadMessage = true
    · rw [if_pos hm]
      exact ⟨_, .goes ht hpc nofun rfl rfl (.inl ⟨rfl, rfl⟩)⟩
    · rw [if_neg hm]
      exact ⟨_, .goes ht hpc nofun rfl rfl (.inl ⟨rfl, rfl⟩)⟩
  | handledLock | messageLock | exitLock =>
    simp only [threadStep, hpc] at h
    exact ⟨_, .takes ht hpc nofun h rfl rfl⟩
  | responseLock response =>
    simp only [threadStep, hpc] at h
    exact ⟨_, .takes ht hpc nofun h rfl rfl⟩
  | handled =>
    simp only [threadStep, hpc] at h
    split at h
    · cases h
    · rename_i pool hp
      obtain rfl := Option.some.inj h
      exact ⟨_, .leaves ht hpc nofun rfl rfl rfl (.inr (.inl ⟨hp, rfl, rfl⟩))⟩
  | checking =>
    simp only [threadStep, hpc] at h
    split_ifs at h
    · obtain rfl := Option.some.inj h
      exact ⟨_, .leaves ht hpc nofun rfl rfl rfl (.inl ⟨rfl, rfl⟩)⟩
    · split at h
      · obtain rfl := Option.some.inj h
        exact ⟨_, .leaves ht hpc nofun rfl rfl rfl (.inl ⟨rfl, rfl⟩)⟩
      · obtain rfl := Option.some.inj h
        exact ⟨_, .leaves ht hpc nofun rfl rfl rfl (.inl ⟨rfl, rfl⟩)⟩
  | idle =>
    simp only [threadStep, hpc] at h
    obtain rfl := Option.some.inj h
    exact ⟨_, .goes ht hpc nofun rfl rfl (.inl ⟨rfl, rfl⟩)⟩
  | handling msg =>
    simp only [threadStep, hpc] at h
    split at h
    · obtain rfl := Option.some.inj h
      exact ⟨_, .goes ht hpc nofun rfl rfl (.inl ⟨rfl, rfl⟩)⟩
    · obtain rfl := Option.some.inj h
      exact ⟨_, .goes ht hpc nofun rfl rfl (.inl ⟨rfl, rfl⟩)⟩
  | responding response =>
    simp only [threadStep, hpc] at h
    obtain rfl := Option.some.inj h
    exact ⟨_, .leaves ht hpc nofun rfl rfl rfl (.inl ⟨rfl, rfl⟩)⟩
  | exiting =>
    simp only [threadStep, hpc] at h
    obtain rfl := Option.some.inj h
    exact ⟨_, .leaves ht hpc nofun rfl rfl rfl (.inr (.inr (.inl ⟨rfl, rfl, rfl⟩)))⟩
  | left =>
    simp only [threadStep, hpc] at h
    obtain rfl := Option.some.inj h
    exact ⟨_, .goes ht hpc nofun rfl rfl (.inr (.inr (.inr ⟨rfl, rfl, rfl⟩)))⟩
  | ended =>
    simp only [threadStep, hpc] at h
    cases h

/-! The steps of the main thread. -/

/-- Where the main thread is in `join`. -/
def MainPc.joining (p : WorkerPool) : MainPc → Joining
  | .joinHead => p.joinNext
  | .joinWait w | .relock w | .erasing w => .waiting w
  | .exitedHead | .exitedWait _ | .deleteLock .. | .deleting .. => .exited
  | .idle | .sendLock .. | .sending .. | .messageLock .. | .pushing .. | .sent | .drainLock
  | .draining
  | .responseLock _ | .responding _ | .stopLock | .stopHead | .stopMessageLock _ | .stopping _
  | .moving _
  | .joinLock => .out

def toUse (s : State) : PoolUse.State :=
  ⟨s.pool, s.threads.mapVals fun t => t.pc.status, s.main.joining s.pool⟩

def Ended (s : State) (w : Ptr) : Prop := ∃ t, s.threads.find w = some t ∧ t.pc = .ended

/-- What the main thread knows of the worker that it deals with. -/
def MainFits (s : State) : Prop :=
  match s.main with
  | .stopMessageLock w | .stopping w | .moving w => w ∈ s.pool.workers
  | .relock w | .erasing w => Ended s w
  | .exitedWait w => s.pool.exitedWorkers.head? = some w
  | .deleteLock w false | .deleting w false => s.pool.exitedWorkers.head? = some w ∧ Ended s w
  -- a worker that `join` finds exiting has not ended
  | .deleteLock _ true | .deleting _ true => False
  | _ => True

structure Inv (s : State) : Prop where
  held : Held s
  fits : MainFits s
  joined : ∀ w t, s.threads.find w = some t → t.joined = true → t.pc = .ended

theorem Inv.main (hi : Inv s) (hlocks : LockChange .main s.owner s'.owner s.main.held s'.main.held)
    (hworkers : ∀ w, s'.held (.worker w) = s.held (.worker w)) (hfits : MainFits s')
    (hjoined : ∀ w t, s'.threads.find w = some t → t.joined = true → t.pc = .ended) : Inv s' := by
  refine ⟨hi.held.change .main hlocks fun tid htid => ?_, hfits, hjoined⟩
  cases tid with
  | main => exact absurd rfl htid
  | worker w => exact hworkers w

theorem held_worker (h : (s'.threads.find w).map Thread.pc = (s.threads.find w).map Thread.pc) :
    s'.held (.worker w) = s.held (.worker w) := by
  have hpcs : ∀ s : State, s.held (.worker w) =
      ((s.threads.find w).map Thread.pc).elim [] (ThreadPc.held w) := by
    intro s
    rw [Option.elim_map]
    rfl
  rw [hpcs, hpcs, h]

def Same (s s' : State) : Prop :=
  ∀ w, (s'.threads.find w).map (fun t => (t.pc, t.joined)) = (s.threads.find w).map
    fun t => (t.pc, t.joined)

theorem Same.refl : Same s s := fun _ => rfl

theorem same_modify {f : Thread → Thread} {p : WorkerPool} {outgoing : List (ℤ × Bytes)}
    {owner : Lock → Option Tid}
    (hf : ∀ t, (f t).pc = t.pc ∧ (f t).joined = t.joined) :
    Same s ⟨p, s.threads.modify w f, outgoing, pc, owner⟩ := by
  intro v
  rw [SortedMap.find_modify]
  split_ifs
  · cases s.threads.find v with
    | none => rfl
    | some t => simp [hf t]
  · rfl

theorem Same.pcs (h : Same s s') (w : Ptr) :
    (s'.threads.find w).map Thread.pc = (s.threads.find w).map Thread.pc := by
  have hw := congrArg (Option.map Prod.fst) (h w)
  rw [Option.map_map, Option.map_map] at hw
  exact hw

theorem Same.ended (h : Same s s') (he : Ended s w) : Ended s' w := by
  obtain ⟨t, ht, hpc⟩ := he
  have hw := h.pcs w
  rw [ht] at hw
  obtain ⟨t', ht', hpc'⟩ := Option.map_eq_some_iff.mp hw
  exact ⟨t', ht', hpc'.trans hpc⟩

theorem Inv.same (hi : Inv s) (hsame : Same s s')
    (hlocks : LockChange .main s.owner s'.owner s.main.held s'.main.held) (hfits : MainFits s') :
    Inv s' := by
  apply hi.main hlocks (fun w => held_worker (hsame.pcs w)) hfits
  intro w t' ht' hj
  have hw := hsame w
  rw [ht'] at hw
  obtain ⟨t, ht, heq⟩ := Option.map_eq_some_iff.mp hw.symm
  obtain ⟨hpc, hjoined⟩ := Prod.mk.inj heq
  rw [← hpc]
  exact hi.joined w t ht (hjoined.trans hj)

theorem toUse_same (hsame : Same s s') (hpool : s'.pool = s.pool)
    (hj : s'.main.joining s'.pool = s.main.joining s.pool) : toUse s' = toUse s := by
  have hthreads : s'.threads.mapVals (fun t => t.pc.status) = s.threads.mapVals fun t =>
      t.pc.status := by
    ext1 w
    rw [SortedMap.find_mapVals, SortedMap.find_mapVals]
    have hw := congrArg (Option.map ThreadPc.status) (hsame.pcs w)
    rw [Option.map_map, Option.map_map] at hw
    exact hw
  unfold toUse
  rw [hthreads, hpool, ← hj, hpool]

/-- The step is none for the pool, or one of its operations. -/
def Uses (s s' : State) : Prop :=
  toUse s' = toUse s ∨ ∃ op, PoolUse.step (toUse s) op = some (toUse s')

theorem lockMain_some (h : s.lockMain l pc = some s') :
    s.owner l = none ∧ s' = { s with
      owner := Function.update s.owner l (some .main), main := pc } := by
  obtain ⟨s₁, h₁, rfl⟩ := Option.map_eq_some_iff.mp h
  obtain ⟨hfree, rfl⟩ := lock_some h₁
  exact ⟨hfree, rfl⟩

theorem Inv.locks (hi : Inv s) (h : s.lockMain l pc = some s') (hheld : pc.held = l :: s.main.held)
    (hfits : MainFits { s with main := pc }) : Inv s' := by
  obtain ⟨hfree, rfl⟩ := lockMain_some h
  refine hi.same .refl (.inr (.inl ⟨l, hfree, rfl, hheld⟩)) ?_
  exact hfits

theorem uses_lock (h : s.lockMain l pc = some s') (hj : pc.joining s.pool = s.main.joining s.pool) :
    Uses s s' := by
  obtain ⟨-, rfl⟩ := lockMain_some h
  exact .inl (toUse_same .refl rfl hj)

theorem main_locks {fresh : Ptr} (h : mainStep s fresh = some s') (hi : Inv s)
    (hw : s.main.wants = some l)
    (hnext : s.main ≠ .joinLock) : Inv s' ∧ Uses s s' := by
  have hfits := hi.fits
  cases hm : s.main with
  | sendLock | drainLock | responseLock | stopLock =>
    simp only [mainStep, hm] at h
    exact ⟨hi.locks h (by rw [hm]; rfl) trivial, uses_lock h (by rw [hm]; rfl)⟩
  | messageLock worker msg =>
    simp only [mainStep, hm] at h
    exact ⟨hi.locks h (by rw [hm]; rfl) trivial, uses_lock h (by rw [hm]; rfl)⟩
  | stopMessageLock worker | relock worker =>
    simp only [mainStep, hm] at h
    simp only [MainFits, hm] at hfits
    exact ⟨hi.locks h (by rw [hm]; rfl) hfits, uses_lock h (by rw [hm]; rfl)⟩
  | deleteLock worker first =>
    simp only [mainStep, hm] at h
    cases first with
    | true => simp [MainFits, hm] at hfits
    | false =>
      simp only [MainFits, hm] at hfits
      exact ⟨hi.locks h (by rw [hm]; rfl) hfits, uses_lock h (by rw [hm]; rfl)⟩
  | joinLock => exact absurd hm hnext
  | idle | sending | pushing | sent | draining | responding | stopHead | stopping | moving
  | joinHead | joinWait
  | erasing | exitedHead | exitedWait | deleting => simp [hm, MainPc.wants] at hw

theorem Inv.unlocks (hi : Inv s) (hsame : Same s s')
    (ho : s'.owner = Function.update s.owner l none)
    (hheld : s.main.held = l :: s'.main.held) (hnot : l ∉ s'.main.held) (hfits : MainFits s') :
    Inv s' :=
  hi.same hsame (.inr (.inr ⟨l, hnot, ho, hheld⟩)) hfits

theorem Inv.goes (hi : Inv s) (hsame : Same s s') (ho : s'.owner = s.owner)
    (hheld : s'.main.held = s.main.held)
    (hfits : MainFits s') : Inv s' := hi.same hsame (.inl ⟨ho, hheld⟩) hfits

theorem find_toUse : (toUse s).threads.find w = (s.threads.find w).map fun t => t.pc.status :=
  SortedMap.find_mapVals _ _ _

theorem mem_toUse : w ∈ (toUse s).threads ↔ w ∈ s.threads := by
  rw [SortedMap.mem_def, SortedMap.mem_def, find_toUse, Option.isSome_map]

theorem Ended.joins (h : Ended s w) : ((toUse s).threads.find w).any PoolUse.Status.joins := by
  obtain ⟨t, ht, hpc⟩ := h
  rw [find_toUse, ht, Option.map_some, hpc]
  rfl

theorem main_sending {group : Bytes} {msg : Message} {fresh : Ptr}
    (h : sending s group msg fresh = some s')
    (hm : s.main = .sending group msg) (hi : Inv s) : Inv s' ∧ Uses s s' := by
  obtain ⟨hfresh, h⟩ := Option.ite_none_right_eq_some.mp h
  have hnew : fresh ∉ (toUse s).threads := fun hmem => hfresh (mem_toUse.mp hmem)
  have hj : (toUse s).joining = .out := by simp only [toUse, hm]; rfl
  split at h
  · cases h
  · rename_i worker pool hp
    obtain rfl := Option.some.inj h
    refine ⟨hi.goes .refl rfl (by rw [hm]; rfl) trivial, .inr ⟨.sendToWorker group fresh, ?_⟩⟩
    have hpool : (toUse s).pool.sendToWorker group fresh = .ok (worker, false, pool) := hp
    have hstep : PoolUse.step (toUse s) (.sendToWorker group fresh) = some { toUse s with
        pool } := by
      simp [PoolUse.step, hj, hnew, hpool]
    rw [hstep]
    simp only [toUse, hm, MainPc.joining]
  · rename_i worker pool hp
    obtain ⟨v, -, rfl⟩ := Option.map_eq_some_iff.mp h
    obtain ⟨hf, -⟩ | ⟨-, rfl, -⟩ := sendToWorker_ok hp
    · cases hf
    · have hnone := SortedMap.not_mem_iff.mp hfresh
      have hfind := SortedMap.find_insert_new hnone (Thread.new v)
      refine ⟨hi.main (.inl ⟨rfl, by rw [hm]; rfl⟩) (fun w => ?_) trivial ?_,
        .inr ⟨.sendToWorker group worker, ?_⟩⟩
      · simp only [State.held]
        rw [hfind]
        split_ifs with hw
        · rw [hw, hnone]
          rfl
        · rfl
      · intro w t ht hj
        simp only [hfind] at ht
        split_ifs at ht
        · obtain rfl := Option.some.inj ht
          cases hj
        · exact hi.joined w t ht hj
      · have hpool : (toUse s).pool.sendToWorker group worker = .ok (worker, true, pool) := hp
        have hstep : PoolUse.step (toUse s) (.sendToWorker group worker) =
            some { toUse s with pool, threads := (toUse s).threads.insert worker .running } := by
          simp [PoolUse.step, hj, hnew, hpool]
        rw [hstep]
        simp only [toUse, hm, MainPc.joining, SortedMap.mapVals_insert hnone]
        rfl

theorem Inv.ended_of_joins (hi : Inv s) (h : (s.threads.find w).any Thread.joins) : Ended s w := by
  cases ht : s.threads.find w with
  | none => simp [ht] at h
  | some t =>
    refine ⟨t, ht, ?_⟩
    rw [ht, Option.any_some, Thread.joins, Bool.or_eq_true] at h
    rcases h with h | h
    · exact hi.joined w t ht h
    · exact of_decide_eq_true h

theorem main_waited (h : waited s w pc = some s') (hi : Inv s) (hheld : pc.held = s.main.held)
    (hfits : Ended s' w → s'.pool = s.pool → s'.main = pc → MainFits s')
    (hj : pc.joining s.pool = s.main.joining s.pool) : Inv s' ∧ Uses s s' := by
  obtain ⟨hjoins, h⟩ := Option.ite_none_right_eq_some.mp h
  obtain rfl := Option.some.inj h
  obtain ⟨t, ht, hpc⟩ := hi.ended_of_joins hjoins
  have hself : (s.threads.modify w .join).find w = some t.join := SortedMap.find_modify_self ht _
  have hother : ∀ v, v ≠ w → (s.threads.modify w .join).find v = s.threads.find v := fun v hv => by
    rw [SortedMap.find_modify, if_neg hv]
  refine ⟨hi.main (.inl ⟨rfl, hheld⟩) (fun v => ?_) (hfits ⟨_, hself, hpc⟩ rfl rfl)
    fun v t' ht' hjoined => ?_, .inl ?_⟩
  · apply held_worker
    simp only [State.goto, State.modify]
    by_cases hv : v = w
    · rw [hv, hself, ht]
      rfl
    · rw [hother v hv]
  · simp only [State.goto, State.modify] at ht'
    by_cases hv : v = w
    · rw [hv, hself] at ht'
      obtain rfl := Option.some.inj ht'
      exact hpc
    · rw [hother v hv] at ht'
      exact hi.joined v t' ht' hjoined
  · have hthreads : (s.threads.modify w .join).mapVals (fun t => t.pc.status) =
        s.threads.mapVals fun t => t.pc.status := SortedMap.mapVals_modify_self fun _ _ => rfl
    simp only [toUse, State.goto, State.modify, hthreads, hj]

theorem main_moving (hm : s.main = .moving w) (hi : Inv s) :
    Inv ({ s with pool := s.pool.moveToExiting w }.goto .stopHead) ∧
      Uses s ({ s with pool := s.pool.moveToExiting w }.goto .stopHead) := by
  have hw : w ∈ s.pool.workers := by simpa [MainFits, hm] using hi.fits
  refine ⟨hi.goes .refl rfl (by rw [hm]; rfl) trivial, .inr ⟨.requestExit w, ?_⟩⟩
  have hj : (toUse s).joining = .out := by simp only [toUse, hm]; rfl
  have hmem : w ∈ (toUse s).pool.workers := hw
  have hstep : PoolUse.step (toUse s) (.requestExit w) =
      some { toUse s with pool := (toUse s).pool.requestExit w } := by
    simp [PoolUse.step, hj, hmem]
  rw [hstep]
  simp only [toUse, hm, MainPc.joining, State.goto]
  rfl

theorem main_joinLock {fresh : Ptr} (h : mainStep s fresh = some s') (hm : s.main = .joinLock)
    (hi : Inv s) :
    Inv s' ∧ Uses s s' := by
  simp only [mainStep, hm] at h
  refine ⟨hi.locks h (by rw [hm]; rfl) trivial, .inr ⟨.join, ?_⟩⟩
  obtain ⟨-, rfl⟩ := lockMain_some h
  have hj : (toUse s).joining = .out := by simp only [toUse, hm]; rfl
  have hstep : PoolUse.step (toUse s) .join = some { toUse s with
      joining := (toUse s).pool.joinNext } := by
    simp [PoolUse.step, hj]
  rw [hstep]
  rfl

theorem main_erasing (hm : s.main = .erasing w) (hi : Inv s) (hs : PoolUse.Sound (toUse s)) :
    Inv ({ s with pool := (s.pool.joinErase w).2 }.goto
        (if (s.pool.joinErase w).1 then .deleteLock w true else .joinHead)) ∧
      Uses s ({ s with pool := (s.pool.joinErase w).2 }.goto
        (if (s.pool.joinErase w).1 then .deleteLock w true else .joinHead)) := by
  have hended : Ended s w := by simpa [MainFits, hm] using hi.fits
  have hnot : w ∉ s.pool.exitingWorkers := by
    obtain ⟨t, ht, hpc⟩ := hended
    have hfits := hs.fits w
    rw [PoolUse.FitsAt, find_toUse, ht, Option.map_some, hpc] at hfits
    exact hfits.2.1
  have hkept : (s.pool.joinErase w).1 = false := decide_eq_false hnot
  rw [hkept]
  refine ⟨hi.goes .refl rfl (by rw [hm]; rfl) trivial, .inr ⟨.joined, ?_⟩⟩
  have hj : (toUse s).joining = .waiting w := by simp only [toUse, hm]; rfl
  have hkept' : ((toUse s).pool.joinErase w).1 = false := hkept
  have hstep : PoolUse.step (toUse s) .joined =
      some ⟨((toUse s).pool.joinErase w).2, (toUse s).threads,
          ((toUse s).pool.joinErase w).2.joinNext⟩ := by
    simp only [PoolUse.step, hj, hended.joins, if_true, hkept', Bool.false_eq_true, if_false]
  rw [hstep]
  rfl

theorem main_exitedHead {fresh : Ptr} (h : mainStep s fresh = some s') (hm : s.main = .exitedHead)
    (hi : Inv s) :
    Inv s' ∧ Uses s s' := by
  simp only [mainStep, hm] at h
  split at h
  · rename_i hl
    obtain rfl := Option.some.inj h
    refine ⟨hi.unlocks .refl rfl (by rw [hm]; rfl) List.not_mem_nil trivial, .inr ⟨.reap, ?_⟩⟩
    have hj : (toUse s).joining = .exited := by simp only [toUse, hm]; rfl
    have hl' : (toUse s).pool.exitedWorkers = [] := hl
    have hstep : PoolUse.step (toUse s) .reap = some { toUse s with joining := .out } := by
      simp [PoolUse.step, hj, hl']
    rw [hstep]
    rfl
  · rename_i worker rest hl
    obtain rfl := Option.some.inj h
    refine ⟨hi.goes .refl rfl (by rw [hm]; rfl) ?_, .inl (toUse_same .refl rfl (by rw [hm]; rfl))⟩
    simp only [MainFits, State.goto, hl]
    rfl

theorem main_deleting (hm : s.main = .deleting w false) (hi : Inv s) :
    Inv (({ s with
      threads := s.threads.erase w
      pool := { s.pool with exitedWorkers := s.pool.exitedWorkers.tail } }.unlock
        (.message w)).goto .exitedHead) ∧
      Uses s (({ s with
        threads := s.threads.erase w
        pool := { s.pool with exitedWorkers := s.pool.exitedWorkers.tail } }.unlock
          (.message w)).goto .exitedHead) := by
  have hfits := hi.fits
  simp only [MainFits, hm] at hfits
  obtain ⟨hhead, hended⟩ := hfits
  obtain ⟨rest, hl⟩ : ∃ rest, s.pool.exitedWorkers = w :: rest := by
    cases hl : s.pool.exitedWorkers with
    | nil => simp [hl] at hhead
    | cons v rest =>
      rw [hl] at hhead
      obtain rfl := Option.some.inj hhead
      exact ⟨rest, rfl⟩
  have herase := SortedMap.find_erase s.threads w
  refine ⟨hi.main (.inr (.inr ⟨.message w, by simp [State.goto, MainPc.held], rfl,
    by rw [hm]; rfl⟩))
    (fun v => ?_) trivial ?_, .inr ⟨.reap, ?_⟩⟩
  · simp only [State.held, State.goto, State.unlock]
    rw [herase]
    split_ifs with hv
    · obtain ⟨t, ht, hpc⟩ := hended
      rw [hv, ht, Option.elim_some, hpc]
      rfl
    · rfl
  · intro v t ht hj
    simp only [State.goto, State.unlock, herase] at ht
    split_ifs at ht
    exact hi.joined v t ht hj
  · have hj : (toUse s).joining = .exited := by simp only [toUse, hm]; rfl
    have hl' : (toUse s).pool.exitedWorkers = w :: rest := hl
    have hstep : PoolUse.step (toUse s) .reap = some { toUse s with
        pool := { (toUse s).pool with exitedWorkers := rest }
        threads := (toUse s).threads.erase w } := by
      simp [PoolUse.step, hj, hl', hended.joins]
    rw [hstep]
    simp only [toUse, hm, MainPc.joining, State.goto, State.unlock, SortedMap.mapVals_erase, hl,
      List.tail_cons]

theorem main_step {fresh : Ptr} (h : mainStep s fresh = some s') (hi : Inv s)
    (hs : PoolUse.Sound (toUse s)) :
    Inv s' ∧ Uses s s' := by
  have hfits := hi.fits
  cases hm : s.main with
  | idle =>
    simp only [mainStep, hm] at h
    cases h
  | sendLock | messageLock | drainLock | responseLock | stopLock | stopMessageLock | relock
  | deleteLock =>
    exact main_locks h hi (by rw [hm]; rfl) (by simp [hm])
  | joinLock => exact main_joinLock h hm hi
  | sending group msg =>
    simp only [mainStep, hm] at h
    exact main_sending h hm hi
  | pushing worker msg =>
    simp only [mainStep, hm] at h
    obtain rfl := Option.some.inj h
    have hsame : Same s (((s.modify worker (.sendMessage msg)).unlock (.message worker)).goto
        .sent) :=
      same_modify fun _ => ⟨rfl, rfl⟩
    refine ⟨hi.unlocks hsame rfl (by rw [hm]; rfl) ?_ trivial,
      .inl (toUse_same hsame rfl (by rw [hm]; rfl))⟩
    simp [State.goto, MainPc.held]
  | sent | draining | responding =>
    simp only [mainStep, hm] at h
    obtain rfl := Option.some.inj h
    exact ⟨hi.unlocks .refl rfl (by rw [hm]; rfl) List.not_mem_nil trivial,
      .inl (toUse_same .refl rfl (by rw [hm]; rfl))⟩
  | stopHead =>
    simp only [mainStep, hm] at h
    split at h
    · obtain rfl := Option.some.inj h
      exact ⟨hi.unlocks .refl rfl (by rw [hm]; rfl) List.not_mem_nil trivial,
        .inl (toUse_same .refl rfl (by rw [hm]; rfl))⟩
    · rename_i hl
      obtain rfl := Option.some.inj h
      refine ⟨hi.goes .refl rfl (by rw [hm]; rfl) ?_, .inl (toUse_same .refl rfl (by rw [hm]; rfl))⟩
      exact SortedMap.mem_of_find (SortedMap.find_head hl)
  | stopping worker =>
    simp only [mainStep, hm] at h
    obtain rfl := Option.some.inj h
    have hsame : Same s (((s.modify worker .stop).unlock (.message worker)).goto
        (.moving worker)) :=
      same_modify fun _ => ⟨rfl, rfl⟩
    simp only [MainFits, hm] at hfits
    refine ⟨hi.unlocks hsame rfl (by rw [hm]; rfl) ?_ hfits,
      .inl (toUse_same hsame rfl (by rw [hm]; rfl))⟩
    simp [State.goto, MainPc.held]
  | moving worker =>
    simp only [mainStep, hm] at h
    obtain rfl := Option.some.inj h
    exact main_moving hm hi
  | joinHead =>
    simp only [mainStep, hm] at h
    split at h
    · rename_i worker hn
      obtain rfl := Option.some.inj h
      exact ⟨hi.unlocks .refl rfl (by rw [hm]; rfl) List.not_mem_nil trivial,
        .inl (toUse_same .refl rfl (by rw [hm]; exact hn.symm))⟩
    · rename_i hn
      obtain rfl := Option.some.inj h
      refine ⟨hi.goes .refl rfl (by rw [hm]; rfl) trivial, .inl (toUse_same .refl rfl ?_)⟩
      rw [hm]
      simp only [State.goto, MainPc.joining]
      unfold joinNext at hn ⊢
      split
      · rfl
      · rename_i worker _ _ hl
        exact absurd (by rw [hl]) (hn worker)
  | joinWait worker =>
    simp only [mainStep, hm] at h
    refine main_waited h hi (by rw [hm]; rfl) (fun hended _ hmain => ?_) (by rw [hm]; rfl)
    simp only [MainFits, hmain]
    exact hended
  | erasing worker =>
    simp only [mainStep, hm] at h
    obtain rfl := Option.some.inj h
    exact main_erasing hm hi hs
  | exitedHead => exact main_exitedHead h hm hi
  | exitedWait worker =>
    simp only [mainStep, hm] at h
    simp only [MainFits, hm] at hfits
    refine main_waited h hi (by rw [hm]; rfl) (fun hended hpool hmain => ?_) (by rw [hm]; rfl)
    simp only [MainFits, hmain, hpool]
    exact ⟨hfits, hended⟩
  | deleting worker first =>
    cases first with
    | true => simp [MainFits, hm] at hfits
    | false =>
      simp only [mainStep, hm] at h
      obtain rfl := Option.some.inj h
      exact main_deleting hm hi

/-! The steps of a worker leave the main thread what it knows. -/

theorem joining_of_unlocked (h : .workerlist ∉ pc.held) (p q : WorkerPool) :
    pc.joining p = pc.joining q ∧ pc.joining p ≠ .exited := by
  cases pc with
  | sending | messageLock | sent | stopHead | stopMessageLock | moving | joinHead | erasing
  | exitedHead | exitedWait
  | deleteLock | pushing | stopping | deleting => simp [MainPc.held] at h
  | idle | sendLock | drainLock | draining | responseLock | responding | stopLock | joinLock
  | joinWait | relock =>
    exact ⟨rfl, nofun⟩

/-- While a worker holds the lock of the pool, the main thread does not. -/
theorem Held.unlocked_of_worker (h : Held s) (ht : s.threads.find w = some t)
    (hl : .workerlist ∈ t.pc.held w) :
    .workerlist ∉ s.main.held := by
  intro hmain
  have hworker := (h .workerlist (.worker w)).mpr
    (by simpa only [State.held, ht, Option.elim_some] using hl)
  rw [(h .workerlist .main).mpr hmain] at hworker
  cases hworker

theorem ThreadMoves.find (h : ThreadMoves s w t s' t') (ht : s.threads.find w = some t) (v : Ptr) :
    s'.threads.find v = if v = w then some t' else s.threads.find v := by
  rw [h.threads, SortedMap.find_modify]
  split_ifs with hv
  · rw [hv, ht]
    rfl
  · rfl

theorem ThreadMoves.ended (h : ThreadMoves s w t s' t') (ht : s.threads.find w = some t) {v : Ptr}
    (he : Ended s v) :
    Ended s' v := by
  obtain ⟨u, hu, hpc⟩ := he
  have hv : v ≠ w := by
    rintro rfl
    rw [ht] at hu
    obtain rfl := Option.some.inj hu
    exact h.runs hpc
  exact ⟨u, by rw [h.find ht, if_neg hv, hu], hpc⟩

theorem ThreadMoves.fits (h : ThreadMoves s w t s' t') (ht : s.threads.find w = some t)
    (hi : Inv s) :
    MainFits s' := by
  have hfits := hi.fits
  have hpool : s'.pool = s.pool ∨ .workerlist ∉ s.main.held := by
    rcases h.pool with ⟨hp, -⟩ | ⟨-, hpc, -⟩ | ⟨-, hpc, -⟩ | ⟨hp, -⟩
    · exact .inl hp
    · exact .inr (hi.held.unlocked_of_worker ht (by rw [hpc]; exact List.mem_singleton_self _))
    · exact .inr (hi.held.unlocked_of_worker ht (by rw [hpc]; exact List.mem_singleton_self _))
    · exact .inl hp
  unfold MainFits at hfits ⊢
  rw [h.main]
  cases hm : s.main with
  | stopMessageLock v | stopping v | moving v | exitedWait v =>
    rw [hm] at hfits hpool
    have hp := hpool.resolve_right (by simp [MainPc.held])
    simp only [hp]
    exact hfits
  | relock v | erasing v =>
    rw [hm] at hfits
    exact h.ended ht hfits
  | deleteLock v first | deleting v first =>
    rw [hm] at hfits hpool
    have hp := hpool.resolve_right (by simp [MainPc.held])
    cases first with
    | true => exact hfits
    | false =>
      simp only [hp]
      exact ⟨hfits.1, h.ended ht hfits.2⟩
  | idle | sendLock | sending | messageLock | pushing | sent | drainLock | draining | responseLock
  | responding
  | stopLock | stopHead | joinLock | joinHead | joinWait | exitedHead => trivial

theorem ThreadMoves.inv (h : ThreadMoves s w t s' t') (ht : s.threads.find w = some t)
    (hi : Inv s) : Inv s' := by
  refine ⟨hi.held.change (.worker w) ?_ fun tid htid => ?_, h.fits ht hi, fun v u hu hj => ?_⟩
  · simp only [State.held, h.find ht, ht, if_true, Option.elim_some]
    exact h.locks
  · cases tid with
    | main => simp only [State.held, h.main]
    | worker v =>
      have hv : v ≠ w := fun he => htid (by rw [he])
      simp only [State.held, h.find ht, if_neg hv]
  · rw [h.find ht] at hu
    split_ifs at hu with hv
    · obtain rfl := Option.some.inj hu
      exact absurd (hi.joined w t ht (h.joined.symm.trans hj)) h.runs
    · exact hi.joined v u hu hj

theorem ThreadMoves.uses (h : ThreadMoves s w t s' t') (ht : s.threads.find w = some t)
    (hi : Inv s) :
    Uses s s' := by
  have hkept : t'.pc.status = t.pc.status →
      s'.threads.mapVals (fun t => t.pc.status) = s.threads.mapVals fun t => t.pc.status :=
          fun hst => by
    rw [h.threads]
    apply SortedMap.mapVals_modify_self
    intro u hu
    rw [ht] at hu
    rw [← Option.some.inj hu, hst]
  have hset : s'.threads.mapVals (fun t => t.pc.status) = (toUse s).threads.modify w fun _ =>
      t'.pc.status := by
    rw [h.threads]
    exact SortedMap.mapVals_modify fun _ _ => rfl
  have hfind : (toUse s).threads.find w = some t.pc.status := by
    rw [find_toUse, ht, Option.map_some]
  rcases h.pool with ⟨hp, hst⟩ | ⟨hp, hpc, hpc'⟩ | ⟨hp, hpc, hpc'⟩ | ⟨hp, hpc, hpc'⟩
  · refine .inl ?_
    simp only [toUse, hkept hst, h.main, hp]
  · have hfree := hi.held.unlocked_of_worker ht (by rw [hpc]; exact List.mem_singleton_self _)
    obtain ⟨hj, hne⟩ := joining_of_unlocked hfree s.pool s'.pool
    have hne' : (toUse s).joining ≠ .exited := hne
    have hp' : (toUse s).pool.workerMessageHandled w true = .ok s'.pool := hp
    refine .inr ⟨.workerMessageHandled w true, ?_⟩
    have hstep : PoolUse.step (toUse s) (.workerMessageHandled w true) = some { toUse s with
        pool := s'.pool } := by
      rw [hpc] at hfind
      simp [PoolUse.step, hne', hfind, ThreadPc.status, hp']
    rw [hstep]
    simp only [toUse, hkept (by rw [hpc, hpc']; rfl), h.main, hj]
  · have hfree := hi.held.unlocked_of_worker ht (by rw [hpc]; exact List.mem_singleton_self _)
    obtain ⟨hj, hne⟩ := joining_of_unlocked hfree s.pool s'.pool
    have hne' : (toUse s).joining ≠ .exited := hne
    refine .inr ⟨.workerExited w, ?_⟩
    have hstep : PoolUse.step (toUse s) (.workerExited w) = some { toUse s with
        pool := (toUse s).pool.workerExited w
        threads := (toUse s).threads.modify w fun _ => .left } := by
      rw [hpc] at hfind
      simp [PoolUse.step, hne', hfind, ThreadPc.status]
    rw [hstep]
    rw [hpc'] at hset
    have heq : toUse s' = ⟨s.pool.workerExited w, (toUse s).threads.modify w fun _ => .left,
        s.main.joining s.pool⟩ := by
      unfold toUse at hset ⊢
      rw [hset, h.main, ← hj, hp]
      rfl
    rw [heq]
    rfl
  · refine .inr ⟨.threadEnds w, ?_⟩
    have hstep : PoolUse.step (toUse s) (.threadEnds w) = some { toUse s with
        threads := (toUse s).threads.modify w fun _ => .ended } := by
      rw [hpc] at hfind
      simp [PoolUse.step, hfind, ThreadPc.status]
    rw [hstep]
    rw [hpc'] at hset
    have heq : toUse s' = ⟨s.pool, (toUse s).threads.modify w fun _ => .ended,
        s.main.joining s.pool⟩ := by
      unfold toUse at hset ⊢
      rw [hset, h.main, hp]
      rfl
    rw [heq]
    rfl

theorem inv_init : Inv init := by
  refine ⟨fun l tid => ?_, trivial, by simp [init]⟩
  cases tid with
  | main => simp [init, State.held, MainPc.held]
  | worker w => simp [init, State.held]

theorem inv_step (h : step s a = some s') (hi : Inv s) (hs : PoolUse.Sound (toUse s)) :
    Inv s' ∧ Uses s s' := by
  cases a with
  | call c =>
    obtain ⟨hm, h⟩ := Option.ite_none_right_eq_some.mp h
    obtain rfl := Option.some.inj h
    cases c with
    | sendToWorker | dispatchResponses | queueResponse | stop | join =>
      exact ⟨hi.goes .refl rfl (by rw [hm]; rfl) trivial,
        .inl (toUse_same .refl rfl (by rw [hm]; rfl))⟩
  | main fresh => exact main_step h hi hs
  | thread w =>
    obtain ⟨t, ht, h⟩ := Option.bind_eq_some_iff.mp h
    obtain ⟨t', hmoves⟩ := threadMoves_of_step ht h
    exact ⟨hmoves.inv ht hi, hmoves.uses ht hi⟩

/-- The threads with their locks refine the use of the pool. -/
theorem toUse_reachable (h : Reachable step free init s) :
    Inv s ∧ Reachable PoolUse.step free PoolUse.init (toUse s) := by
  refine h.invariant_of_reachable
    (fun s => Inv s ∧ Reachable PoolUse.step free PoolUse.init (toUse s))
    ⟨inv_init, .start⟩ fun s a s' _ _ hs hi => ?_
  obtain ⟨hinv, huse⟩ := inv_step hs hi.1 (PoolUse.sound_reachable hi.2)
  refine ⟨hinv, ?_⟩
  rcases huse with heq | ⟨op, hop⟩
  · rw [heq]
    exact hi.2
  · exact hi.2.next trivial hop

end Xaprun.Locks
