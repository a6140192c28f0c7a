import Xaprun.Lib.Footprint
import Xaprun.Sanity.Locks

/-! There are no data races. What a thread does between two of its waits touches its own state, the
locks that it takes or holds and what these guard; so two steps of different threads that can both
be taken touch different data, unless they take the same lock, and the order of the two does not
matter. -/

namespace Xaprun.Locks

open Frames WorkerPool Runs Footprint

/-! The data of the threads. -/

inductive Cell where
  | pool
  | outgoing
  | main
  | owner (l : Lock)
  /-- what only the thread itself uses -/
  | run (w : Ptr)
  | mailbox (w : Ptr)
  /-- the flag that `pthread_join` has returned -/
  | joined (w : Ptr)
  deriving DecidableEq

def Cell.Value : Cell → Type
  | .pool => WorkerPool
  | .outgoing => List (ℤ × Bytes)
  | .main => MainPc
  | .owner _ => Option Tid
  | .run _ => Option (Worker × Bool × ThreadPc)
  | .mailbox _ => Option (List Message × Bool)
  | .joined _ => Option Bool

def Thread.run (t : Thread) : Worker × Bool × ThreadPc := (t.worker, t.hadMessage, t.pc)

def Thread.mailbox (t : Thread) : List Message × Bool := (t.messages, t.stopRequested)

def get : (c : Cell) → State → c.Value
  | .pool, s => s.pool
  | .outgoing, s => s.outgoing
  | .main, s => s.main
  | .owner l, s => s.owner l
  | .run w, s => (s.threads.find w).map Thread.run
  | .mailbox w, s => (s.threads.find w).map Thread.mailbox
  | .joined w, s => (s.threads.find w).map Thread.joined

variable {s s' : State} {w : Ptr} {t : Thread} {l : Lock} {F : Set Cell} {fresh : Ptr}

theorem thread_ext {t t' : Thread} (hrun : t.run = t'.run) (hmail : t.mailbox = t'.mailbox)
    (hj : t.joined = t'.joined) :
    t = t' := by
  cases t
  cases t'
  simp_all [Thread.run, Thread.mailbox]

theorem state_ext (s r : State) (h : ∀ c, get c s = get c r) : s = r := by
  have hthreads : s.threads = r.threads := by
    ext1 w
    have hrun : (s.threads.find w).map Thread.run = (r.threads.find w).map Thread.run := h (.run w)
    have hmail : (s.threads.find w).map Thread.mailbox = (r.threads.find w).map Thread.mailbox :=
      h (.mailbox w)
    have hj : (s.threads.find w).map Thread.joined = (r.threads.find w).map Thread.joined :=
      h (.joined w)
    cases hs : s.threads.find w with
    | none =>
      rw [hs] at hrun
      exact (Option.map_eq_none_iff.mp hrun.symm).symm
    | some t =>
      cases hr : r.threads.find w with
      | none =>
        rw [hs, hr] at hrun
        cases hrun
      | some t' =>
        rw [hs, hr] at hrun hmail hj
        rw [thread_ext (Option.some.inj hrun) (Option.some.inj hmail) (Option.some.inj hj)]
  have hpool : s.pool = r.pool := h .pool
  have hout : s.outgoing = r.outgoing := h .outgoing
  have hmain : s.main = r.main := h .main
  have howner : s.owner = r.owner := funext fun l => h (.owner l)
  cases s
  cases r
  simp_all

/-! What the parts of a step do. -/

theorem acts_pool (p : WorkerPool) (h : .pool ∈ F) : Acts get F fun s => { s with pool := p } := by
  refine Acts.single .pool (fun _ => p) h (fun _ => rfl) fun s c hc => ?_
  cases c with
  | pool => exact absurd rfl hc
  | outgoing | main | owner | run | mailbox | joined => rfl

theorem acts_outgoing (out : List (ℤ × Bytes)) (h : .outgoing ∈ F) :
    Acts get F fun s => { s with outgoing := out } := by
  refine Acts.single .outgoing (fun _ => out) h (fun _ => rfl) fun s c hc => ?_
  cases c with
  | outgoing => exact absurd rfl hc
  | pool | main | owner | run | mailbox | joined => rfl

theorem acts_goto (pc : MainPc) (h : .main ∈ F) : Acts get F fun s => s.goto pc := by
  refine Acts.single .main (fun _ => pc) h (fun _ => rfl) fun s c hc => ?_
  cases c with
  | main => exact absurd rfl hc
  | pool | outgoing | owner | run | mailbox | joined => rfl

theorem acts_owner (l : Lock) (o : Option Tid) (h : .owner l ∈ F) :
    Acts get F fun s => { s with owner := Function.update s.owner l o } := by
  refine Acts.single (.owner l) (fun _ => o) h (fun _ => ?_) fun s c hc => ?_
  · exact Function.update_self _ _ _
  · cases c with
    | owner l' => exact Function.update_of_ne (fun he => hc (by rw [he])) _ _
    | pool | outgoing | main | run | mailbox | joined => rfl

theorem acts_unlock (h : .owner l ∈ F) : Acts get F fun s => s.unlock l := acts_owner l none h

def onThread (w : Ptr) (g : Option (Worker × Bool × ThreadPc) → Option (Worker × Bool × ThreadPc))
    (h : Option (List Message × Bool) → Option (List Message × Bool))
    (k : Option Bool → Option Bool) :
    (c : Cell) → c.Value → c.Value
  | .run v, x => if v = w then g x else x
  | .mailbox v, x => if v = w then h x else x
  | .joined v, x => if v = w then k x else x
  | .pool, x => x
  | .outgoing, x => x
  | .main, x => x
  | .owner _, x => x

theorem acts_thread {u : State → State}
    (g : Option (Worker × Bool × ThreadPc) → Option (Worker × Bool × ThreadPc))
    (h : Option (List Message × Bool) → Option (List Message × Bool))
    (k : Option Bool → Option Bool)
    (hu : ∀ s c, get c (u s) = onThread w g h k c (get c s)) (hg : .run w ∉ F → ∀ x, g x = x)
    (hh : .mailbox w ∉ F → ∀ x, h x = x) (hk : .joined w ∉ F → ∀ x, k x = x) : Acts get F u := by
  refine ⟨onThread w g h k, hu, fun c hc x => ?_⟩
  cases c with
  | pool | outgoing | main | owner => rfl
  | run v =>
    by_cases hv : v = w
    · subst hv
      exact (if_pos rfl).trans (hg hc x)
    · simp [onThread, hv]
  | mailbox v =>
    by_cases hv : v = w
    · subst hv
      exact (if_pos rfl).trans (hh hc x)
    · simp [onThread, hv]
  | joined v =>
    by_cases hv : v = w
    · subst hv
      exact (if_pos rfl).trans (hk hc x)
    · simp [onThread, hv]

theorem get_modify {f : Thread → Thread} {g : Worker × Bool × ThreadPc → Worker × Bool × ThreadPc}
    {h : List Message × Bool → List Message × Bool} {k : Bool → Bool}
    (hrun : ∀ t, (f t).run = g t.run)
    (hmail : ∀ t, (f t).mailbox = h t.mailbox) (hjoined : ∀ t, (f t).joined = k t.joined)
    (s : State) (c : Cell) :
    get c (s.modify w f) = onThread w (.map g) (.map h) (.map k) c (get c s) := by
  cases c with
  | pool | outgoing | main | owner => rfl
  | run v =>
    simp only [get, State.modify, SortedMap.find_modify]
    by_cases hv : v = w
    · rw [if_pos hv]
      refine Eq.trans ?_ (if_pos hv).symm
      rw [Option.map_map, Option.map_map]
      congr 1
      funext t
      exact hrun t
    · rw [if_neg hv]
      exact (if_neg hv).symm
  | mailbox v =>
    simp only [get, State.modify, SortedMap.find_modify]
    by_cases hv : v = w
    · rw [if_pos hv]
      refine Eq.trans ?_ (if_pos hv).symm
      rw [Option.map_map, Option.map_map]
      congr 1
      funext t
      exact hmail t
    · rw [if_neg hv]
      exact (if_neg hv).symm
  | joined v =>
    simp only [get, State.modify, SortedMap.find_modify]
    by_cases hv : v = w
    · rw [if_pos hv]
      refine Eq.trans ?_ (if_pos hv).symm
      rw [Option.map_map, Option.map_map]
      congr 1
      funext t
      exact hjoined t
    · rw [if_neg hv]
      exact (if_neg hv).symm

theorem acts_run (had : Bool → Bool) {f : Thread → Thread} {pc : ThreadPc}
    (hf : ∀ t, f t = { t with hadMessage := had t.hadMessage, pc }) (h : .run w ∈ F) :
    Acts get F fun s => s.modify w f := by
  refine acts_thread (.map fun x => (x.1, had x.2.1, pc)) (.map id) (.map id)
    (get_modify (fun t => by rw [hf]; rfl) (fun t => by rw [hf]; rfl) fun t => by rw [hf]; rfl)
      (fun hno => absurd h hno) ?_ ?_
  · exact fun _ x => by rw [Option.map_id]; rfl
  · exact fun _ x => by rw [Option.map_id]; rfl

theorem acts_mailbox {f : Thread → Thread} (m : List Message × Bool → List Message × Bool)
    (hf : ∀ t, (f t).run = t.run ∧ (f t).joined = t.joined ∧ (f t).mailbox = m t.mailbox)
    (h : .mailbox w ∈ F) :
    Acts get F fun s => s.modify w f := by
  refine acts_thread (.map id) (.map m) (.map id)
    (get_modify (fun t => (hf t).1) (fun t => (hf t).2.2) fun t => (hf t).2.1)
    ?_ (fun hno => absurd h hno) ?_
  · exact fun _ x => by rw [Option.map_id]; rfl
  · exact fun _ x => by rw [Option.map_id]; rfl

theorem acts_take {f : Thread → Thread} {rest : List Message} {pc : ThreadPc}
    (hf : ∀ t, f t = { t with messages := rest, pc }) (hrun : .run w ∈ F) (hmail : .mailbox w ∈ F) :
    Acts get F fun s => s.modify w f := by
  refine acts_thread (.map fun x => (x.1, x.2.1, pc)) (.map fun x => (rest, x.2)) (.map id)
    (get_modify (fun t => by rw [hf]; rfl) (fun t => by rw [hf]; rfl) fun t => by rw [hf]; rfl)
    (fun hno => absurd hrun hno) (fun hno => absurd hmail hno) ?_
  exact fun _ x => by rw [Option.map_id]; rfl

theorem acts_join (h : .joined w ∈ F) : Acts get F fun s => s.modify w .join := by
  refine acts_thread (.map id) (.map id) (.map fun _ => true)
    (get_modify (fun _ => rfl) (fun _ => rfl) fun _ => rfl)
    ?_ ?_ fun hno => absurd h hno
  · exact fun _ x => by rw [Option.map_id]; rfl
  · exact fun _ x => by rw [Option.map_id]; rfl

/-- The cells of a `WorkerThread`. -/
def object (w : Ptr) : Set Cell := {.run w, .mailbox w, .joined w}

theorem acts_erase (h : object w ⊆ F) :
    Acts get F fun s => { s with threads := s.threads.erase w } := by
  refine acts_thread (w := w) (fun _ => none) (fun _ => none) (fun _ => none) (fun s c => ?_)
    (fun hno => absurd (h (by simp [object])) hno) (fun hno => absurd (h (by simp [object])) hno)
    fun hno => absurd (h (by simp [object])) hno
  cases c with
  | pool | outgoing | main | owner => rfl
  | run v | mailbox v | joined v =>
    simp only [get, SortedMap.find_erase]
    by_cases hv : v = w
    · rw [if_pos hv]
      exact (if_pos hv).symm
    · rw [if_neg hv]
      exact (if_neg hv).symm

theorem acts_insert (t : Thread) (h : object w ⊆ F) :
    Acts get F fun s => { s with threads := s.threads.insert w t } := by
  refine acts_thread (w := w) (fun x => some (x.getD t.run)) (fun x => some (x.getD t.mailbox))
    (fun x => some (x.getD t.joined)) (fun s c => ?_)
    (fun hno => absurd (h (by simp [object])) hno) (fun hno => absurd (h (by simp [object])) hno)
    fun hno => absurd (h (by simp [object])) hno
  cases c with
  | pool | outgoing | main | owner => rfl
  | run v | mailbox v | joined v =>
    simp only [get, SortedMap.find_insert]
    by_cases hv : v = w
    · rw [if_pos hv, hv]
      refine Eq.trans ?_ (if_pos rfl).symm
      cases s.threads.find w <;> rfl
    · rw [if_neg hv]
      exact (if_neg hv).symm

/-! The data that a thread may touch. -/

/-- What is guarded by the lock, and the lock. -/
def Lock.cells : Lock → Set Cell
  | .workerlist => {.owner .workerlist, .pool}
  | .message w => {.owner (.message w), .mailbox w}
  | .outgoing => {.owner .outgoing, .outgoing}

/-- The locks that a step takes or is done under. -/
def ThreadPc.locks (w : Ptr) (pc : ThreadPc) : List Lock := (pc.wants w).toList ++ pc.held w

def MainPc.locks (pc : MainPc) : List Lock := pc.wants.toList ++ pc.held

def guarded (ls : List Lock) : Set Cell := {c | ∃ l ∈ ls, c ∈ l.cells}

/-- What the main thread touches of a worker without its lock. -/
def MainPc.objects (fresh : Ptr) : MainPc → Set Cell
  | .sending .. => object fresh
  | .joinWait w | .exitedWait w => {.run w, .joined w}
  | .deleting w _ => object w
  | _ => ∅

def footprint (s : State) : Act → Set Cell
  | .call _ => {.main}
  | .main fresh => {.main} ∪ s.main.objects fresh ∪ guarded s.main.locks
  | .thread w => {.run w} ∪ (s.threads.find w).elim ∅ fun t => guarded (t.pc.locks w)

/-! What a step of a worker thread touches. -/

theorem find_of_run {r : State} (ht : s.threads.find w = some t)
    (h : get (.run w) r = get (.run w) s) :
    ∃ t', r.threads.find w = some t' ∧ t'.worker = t.worker ∧ t'.hadMessage = t.hadMessage ∧
      t'.pc = t.pc := by
  have hrun : (r.threads.find w).map Thread.run = (s.threads.find w).map Thread.run := h
  rw [ht, Option.map_some] at hrun
  obtain ⟨t', ht', heq⟩ := Option.map_eq_some_iff.mp hrun
  simp only [Thread.run, Prod.mk.injEq] at heq
  exact ⟨t', ht', heq⟩

theorem mailbox_of_get {r : State} {t' : Thread} (ht : s.threads.find w = some t)
    (ht' : r.threads.find w = some t')
    (h : get (.mailbox w) r = get (.mailbox w) s) :
    t'.messages = t.messages ∧ t'.stopRequested = t.stopRequested := by
  have hmail : (r.threads.find w).map Thread.mailbox = (s.threads.find w).map Thread.mailbox := h
  rw [ht, ht', Option.map_some, Option.map_some, Option.some.injEq] at hmail
  simpa only [Thread.mailbox, Prod.mk.injEq] using hmail

theorem own_mem : .run w ∈ footprint s (.thread w) := .inl rfl

theorem cells_subset (ht : s.threads.find w = some t) (hl : l ∈ t.pc.locks w) :
    l.cells ⊆ footprint s (.thread w) := by
  intro c hc
  refine .inr ?_
  rw [ht]
  exact ⟨l, hl, hc⟩

theorem Lock.owner_mem (l : Lock) : .owner l ∈ l.cells := by cases l <;> simp [Lock.cells]

/-- What the thread does is `u`, wherever it is in the same place and sees the same data. -/
theorem touches_of {u : State → State} (ht : s.threads.find w = some t)
    (hu : Acts get (footprint s (.thread w)) u)
    (hstep : ∀ r t', (∀ c ∈ footprint s (.thread w), get c r = get c s) →
      r.threads.find w = some t' →
      t'.worker = t.worker → t'.hadMessage = t.hadMessage → t'.pc = t.pc →
        threadStep r w t' = some (u r)) :
    Touches get (footprint s (.thread w)) (step · (.thread w)) s := by
  refine ⟨u, hu, fun r hr => ?_⟩
  obtain ⟨t', ht', hworker, hhad, hpc⟩ := find_of_run ht (hr _ own_mem)
  simp only [step, ht', Option.bind_some]
  exact hstep r t' hr ht' hworker hhad hpc

theorem touches_lock (pc' : ThreadPc) (ht : s.threads.find w = some t)
    (hwants : t.pc.wants w = some l)
    (hstep : ∀ r t', t'.pc = t.pc → threadStep r w t' = r.lockThread w l pc')
    (h : threadStep s w t = some s') :
    Touches get (footprint s (.thread w)) (step · (.thread w)) s := by
  have howner : .owner l ∈ footprint s (.thread w) :=
    cells_subset ht (by simp [ThreadPc.locks, hwants]) l.owner_mem
  have hfree : s.owner l = none := by
    rw [hstep s t rfl] at h
    obtain ⟨s₁, h₁, -⟩ := Option.map_eq_some_iff.mp h
    exact (lock_some h₁).1
  refine touches_of ht
    ((acts_run id (f := .goto pc') (fun _ => rfl) own_mem).comp
      (acts_owner l (some (.worker w)) howner)) ?_
  intro r t' hr _ _ _ hpc
  have hfree' : r.owner l = none := (hr _ howner).trans hfree
  simp only [hstep r t' hpc, State.lockThread, State.lock, hfree', if_true, Option.map_some]

theorem touches_thread (ht : s.threads.find w = some t) (h : threadStep s w t = some s') :
    Touches get (footprint s (.thread w)) (step · (.thread w)) s := by
  have hheld : ∀ l ∈ t.pc.held w, l.cells ⊆ footprint s (.thread w) := fun l hl =>
    cells_subset ht (List.mem_append_right _ hl)
  cases hc : t.pc with
  | handledLock =>
    exact touches_lock .handled ht (by rw [hc]; rfl)
      (fun r t' hpc => by simp only [threadStep, hpc, hc]) h
  | messageLock =>
    exact touches_lock .checking ht (by rw [hc]; rfl)
      (fun r t' hpc => by simp only [threadStep, hpc, hc]) h
  | responseLock response =>
    exact touches_lock (.responding response) ht (by rw [hc]; rfl)
      (fun r t' hpc => by simp only [threadStep, hpc, hc]) h
  | exitLock =>
    exact touches_lock .exiting ht (by rw [hc]; rfl)
      (fun r t' hpc => by simp only [threadStep, hpc, hc]) h
  | entering =>
    cases hm : t.hadMessage with
    | true =>
      refine touches_of ht (acts_run id (f := .goto .handledLock) (fun _ => rfl) own_mem) ?_
      intro r t' _ _ _ hhad hpc
      simp only [threadStep, hpc, hc, hhad, hm, if_true]
    | false =>
      refine touches_of ht (acts_run (fun _ => true)
        (f := fun t => { t with hadMessage := true, pc := .messageLock })
        (fun _ => rfl) own_mem) ?_
      intro r t' _ _ _ hhad hpc
      simp only [threadStep, hpc, hc, hhad, hm, Bool.false_eq_true, if_false]
  | idle =>
    refine touches_of ht (acts_run id (f := .goto .messageLock) (fun _ => rfl) own_mem) ?_
    intro r t' _ _ _ _ hpc
    simp only [threadStep, hpc, hc]
  | handling msg =>
    cases hrun : t.worker.run msg with
    | none =>
      refine touches_of ht (acts_run id (f := .goto .exitLock) (fun _ => rfl) own_mem) ?_
      intro r t' _ _ hworker _ hpc
      simp only [threadStep, hpc, hc, hworker, hrun]
    | some response =>
      refine touches_of ht (acts_run id (f := .goto (.responseLock response))
        (fun _ => rfl) own_mem) ?_
      intro r t' _ _ hworker _ hpc
      simp only [threadStep, hpc, hc, hworker, hrun]
  | left =>
    refine touches_of ht (acts_run id (f := .goto .ended) (fun _ => rfl) own_mem) ?_
    intro r t' _ _ _ _ hpc
    simp only [threadStep, hpc, hc]
  | ended =>
    simp only [threadStep, hc] at h
    cases h
  | handled =>
    have hsub := hheld .workerlist (by rw [hc]; exact List.mem_singleton_self _)
    simp only [threadStep, hc] at h
    split at h
    · cases h
    · rename_i pool hp
      refine touches_of ht ((acts_unlock (l := .workerlist) (hsub (.inl rfl))).comp
        ((acts_run id (f := .goto .messageLock) (fun _ => rfl) own_mem).comp
          (acts_pool pool (hsub (.inr rfl))))) ?_
      intro r t' hr _ _ _ hpc
      have hpool : r.pool = s.pool := hr .pool (hsub (.inr rfl))
      simp only [threadStep, hpc, hc, hpool, hp]
  | exiting =>
    have hsub := hheld .workerlist (by rw [hc]; exact List.mem_singleton_self _)
    refine touches_of ht ((acts_unlock (l := .workerlist) (hsub (.inl rfl))).comp
      ((acts_run id (f := .goto .left) (fun _ => rfl) own_mem).comp
        (acts_pool (s.pool.workerExited w) (hsub (.inr rfl))))) ?_
    intro r t' hr _ _ _ hpc
    have hpool : r.pool = s.pool := hr .pool (hsub (.inr rfl))
    simp only [threadStep, hpc, hc, hpool]
  | responding response =>
    have hsub := hheld .outgoing (by rw [hc]; exact List.mem_singleton_self _)
    refine touches_of ht ((acts_unlock (l := .outgoing) (hsub (.inl rfl))).comp
      ((acts_run id (f := .goto .entering) (fun _ => rfl) own_mem).comp
        (acts_outgoing (s.outgoing ++ [response]) (hsub (.inr rfl))))) ?_
    intro r t' hr _ _ _ hpc
    have hout : r.outgoing = s.outgoing := hr .outgoing (hsub (.inr rfl))
    simp only [threadStep, hpc, hc, hout]
  | checking =>
    have hsub := hheld (.message w) (by rw [hc]; exact List.mem_singleton_self _)
    have hmail : .mailbox w ∈ footprint s (.thread w) := hsub (.inr rfl)
    have hunlock := acts_unlock (l := .message w) (hsub (.inl rfl))
    cases hst : t.stopRequested with
    | true =>
      refine touches_of ht (hunlock.comp
        (acts_run id (f := .goto .exitLock) (fun _ => rfl) own_mem)) ?_
      intro r t' hr ht' _ _ hpc
      obtain ⟨-, hstop⟩ := mailbox_of_get ht ht' (hr _ hmail)
      simp only [threadStep, hpc, hc, hstop, hst, if_true]
    | false =>
      cases hl : t.messages with
      | nil =>
        refine touches_of ht (hunlock.comp
          (acts_run id (f := .goto .idle) (fun _ => rfl) own_mem)) ?_
        intro r t' hr ht' _ _ hpc
        obtain ⟨hmessages, hstop⟩ := mailbox_of_get ht ht' (hr _ hmail)
        simp only [threadStep, hpc, hc, hstop, hst, hmessages, hl, Bool.false_eq_true, if_false]
      | cons msg rest =>
        refine touches_of ht (hunlock.comp
          (acts_take (f := fun t => { t with messages := rest, pc := .handling msg })
          (fun _ => rfl) own_mem hmail)) ?_
        intro r t' hr ht' _ _ hpc
        obtain ⟨hmessages, hstop⟩ := mailbox_of_get ht ht' (hr _ hmail)
        simp only [threadStep, hpc, hc, hstop, hst, hmessages, hl, Bool.false_eq_true, if_false]

/-! What a step of the main thread touches. -/

theorem main_mem : .main ∈ footprint s (.main fresh) := .inl (.inl rfl)

theorem held_subset (hl : l ∈ s.main.held) : l.cells ⊆ footprint s (.main fresh) := fun _ hc =>
  .inr ⟨l, List.mem_append_right _ hl, hc⟩

theorem objects_subset : s.main.objects fresh ⊆ footprint s (.main fresh) :=
  fun _ hc => .inl (.inr hc)

theorem touches_of_main {u : State → State} (hu : Acts get (footprint s (.main fresh)) u)
    (hstep : ∀ r, (∀ c ∈ footprint s (.main fresh), get c r = get c s) → r.main = s.main →
      mainStep r fresh = some (u r)) :
    Touches get (footprint s (.main fresh)) (step · (.main fresh)) s :=
  ⟨u, hu, fun r hr => hstep r hr (hr .main main_mem)⟩

theorem touches_lockMain (pc : MainPc) (hwants : s.main.wants = some l)
    (hstep : ∀ r, r.main = s.main → mainStep r fresh = r.lockMain l pc)
    (h : mainStep s fresh = some s') :
    Touches get (footprint s (.main fresh)) (step · (.main fresh)) s := by
  have howner : .owner l ∈ footprint s (.main fresh) :=
    .inr ⟨l, List.mem_append_left _ (by simp [hwants]), l.owner_mem⟩
  rw [hstep s rfl] at h
  obtain ⟨hfree, -⟩ := lockMain_some h
  refine touches_of_main ((acts_goto pc main_mem).comp (acts_owner l (some .main) howner))
    fun r hr hm => ?_
  have hfree' : r.owner l = none := (hr _ howner).trans hfree
  simp only [hstep r hm, State.lockMain, State.lock, hfree', if_true, Option.map_some]

theorem notMem_of_run {r : State} (hw : w ∉ s.threads) (h : get (.run w) r = get (.run w) s) :
    w ∉ r.threads := by
  have hrun : (r.threads.find w).map Thread.run = (s.threads.find w).map Thread.run := h
  rw [SortedMap.not_mem_iff.mp hw] at hrun
  exact SortedMap.not_mem_iff.mpr (Option.map_eq_none_iff.mp hrun)

theorem touches_sending {group : Bytes} {msg : Message} (hm : s.main = .sending group msg)
    (h : sending s group msg fresh = some s') :
    Touches get (footprint s (.main fresh)) (step · (.main fresh)) s := by
  have hpoolmem : .pool ∈ footprint s (.main fresh) :=
    held_subset (l := .workerlist) (by rw [hm]; exact List.mem_singleton_self _) (.inr rfl)
  have hobject : object fresh ⊆ footprint s (.main fresh) :=
    fun c hc => objects_subset (by rw [hm]; exact hc)
  obtain ⟨hfresh, h⟩ := Option.ite_none_right_eq_some.mp h
  have hsame : ∀ r, (∀ c ∈ footprint s (.main fresh), get c r = get c s) → fresh ∉ r.threads ∧
      r.pool = s.pool :=
    fun r hr => ⟨notMem_of_run hfresh (hr _ (hobject (.inl rfl))), hr .pool hpoolmem⟩
  split at h
  · cases h
  · rename_i worker pool hp
    refine touches_of_main ((acts_goto (.messageLock worker msg) main_mem).comp
      (acts_pool pool hpoolmem)) fun r hr hm' => ?_
    obtain ⟨hfresh', hpool⟩ := hsame r hr
    simp only [mainStep, hm', hm, sending, hfresh', not_false_eq_true, if_true, hpool, hp]
    rfl
  · rename_i worker pool hp
    obtain ⟨w, hw, -⟩ := Option.map_eq_some_iff.mp h
    obtain ⟨hno, -⟩ | ⟨-, rfl, -⟩ := sendToWorker_ok hp
    · cases hno
    refine touches_of_main ((acts_goto (.messageLock worker msg) main_mem).comp
      ((acts_insert (.new w) hobject).comp (acts_pool pool hpoolmem))) fun r hr hm' => ?_
    obtain ⟨hfresh', hpool⟩ := hsame r hr
    simp only [mainStep, hm', hm, sending, hfresh', not_false_eq_true, if_true, hpool, hp, hw,
      Option.map_some]
    rfl

theorem touches_waited {worker : Ptr} (pc : MainPc)
    (hobjects : s.main.objects fresh = {.run worker, .joined worker})
    (hstep : ∀ r, r.main = s.main → mainStep r fresh = waited r worker pc)
    (h : mainStep s fresh = some s') :
    Touches get (footprint s (.main fresh)) (step · (.main fresh)) s := by
  have hsub : {.run worker, .joined worker} ⊆ footprint s (.main fresh) := hobjects ▸ objects_subset
  rw [hstep s rfl] at h
  obtain ⟨hjoins, -⟩ := Option.ite_none_right_eq_some.mp h
  refine touches_of_main ((acts_goto pc main_mem).comp (acts_join (hsub (.inr rfl))))
    fun r hr hm => ?_
  have hjoins' : (r.threads.find worker).any Thread.joins = true := by
    obtain ⟨t, ht, htj⟩ := (Option.any_eq_true _ _).mp hjoins
    obtain ⟨t', ht', -, -, hpc⟩ := find_of_run ht (hr _ (hsub (.inl rfl)))
    have hj : (r.threads.find worker).map Thread.joined =
        (s.threads.find worker).map Thread.joined :=
      hr _ (hsub (.inr rfl))
    rw [ht, ht', Option.map_some, Option.map_some, Option.some.injEq] at hj
    rw [ht', Option.any_some]
    simpa only [Thread.joins, hpc, hj] using htj
  rw [hstep r hm, waited, if_pos hjoins']

theorem touches_main (h : mainStep s fresh = some s') :
    Touches get (footprint s (.main fresh)) (step · (.main fresh)) s := by
  have hheld : ∀ l ∈ s.main.held, l.cells ⊆ footprint s (.main fresh) := fun l hl => held_subset hl
  cases hm : s.main with
  | idle =>
    simp only [mainStep, hm] at h
    cases h
  | sendLock group msg =>
    exact touches_lockMain (.sending group msg) (by rw [hm]; rfl)
      (fun r hr => by simp only [mainStep, hr, hm]) h
  | messageLock worker msg =>
    exact touches_lockMain (.pushing worker msg) (by rw [hm]; rfl)
      (fun r hr => by simp only [mainStep, hr, hm]) h
  | drainLock =>
    exact touches_lockMain .draining (by rw [hm]; rfl)
      (fun r hr => by simp only [mainStep, hr, hm]) h
  | responseLock response =>
    exact touches_lockMain (.responding response) (by rw [hm]; rfl)
      (fun r hr => by simp only [mainStep, hr, hm]) h
  | stopLock =>
    exact touches_lockMain .stopHead (by rw [hm]; rfl)
      (fun r hr => by simp only [mainStep, hr, hm]) h
  | stopMessageLock worker =>
    exact touches_lockMain (.stopping worker) (by rw [hm]; rfl)
      (fun r hr => by simp only [mainStep, hr, hm]) h
  | joinLock =>
    exact touches_lockMain .joinHead (by rw [hm]; rfl)
      (fun r hr => by simp only [mainStep, hr, hm]) h
  | relock worker =>
    exact touches_lockMain (.erasing worker) (by rw [hm]; rfl)
      (fun r hr => by simp only [mainStep, hr, hm]) h
  | deleteLock worker first =>
    exact touches_lockMain (.deleting worker first) (by rw [hm]; rfl)
      (fun r hr => by simp only [mainStep, hr, hm]) h
  | sending group msg =>
    simp only [mainStep, hm] at h
    exact touches_sending hm h
  | joinWait worker =>
    exact touches_waited (.relock worker) (by rw [hm]; rfl)
      (fun r hr => by simp only [mainStep, hr, hm]) h
  | exitedWait worker =>
    exact touches_waited (.deleteLock worker false) (by rw [hm]; rfl)
      (fun r hr => by simp only [mainStep, hr, hm]) h
  | pushing worker msg =>
    have hsub := hheld (.message worker) (by rw [hm]; exact List.mem_cons_self)
    refine touches_of_main ((acts_goto .sent main_mem).comp
      ((acts_unlock (l := .message worker) (hsub (.inl rfl))).comp
      (acts_mailbox (f := .sendMessage msg) (fun m => (m.1 ++ [msg], m.2))
        (fun _ => ⟨rfl, rfl, rfl⟩) (hsub (.inr rfl)))))
      fun r _ hr => ?_
    simp only [mainStep, hr, hm]
  | stopping worker =>
    have hsub := hheld (.message worker) (by rw [hm]; exact List.mem_cons_self)
    refine touches_of_main ((acts_goto (.moving worker) main_mem).comp
      ((acts_unlock (l := .message worker) (hsub (.inl rfl))).comp
        (acts_mailbox (f := .stop) (fun m => (m.1, true)) (fun _ => ⟨rfl, rfl, rfl⟩)
          (hsub (.inr rfl))))) fun r _ hr => ?_
    simp only [mainStep, hr, hm]
  | sent =>
    have hsub := hheld .workerlist (by rw [hm]; exact List.mem_cons_self)
    refine touches_of_main ((acts_goto .idle main_mem).comp
      (acts_unlock (l := .workerlist) (hsub (.inl rfl)))) fun r _ hr => ?_
    simp only [mainStep, hr, hm]
  | draining =>
    have hsub := hheld .outgoing (by rw [hm]; exact List.mem_cons_self)
    refine touches_of_main ((acts_goto .idle main_mem).comp
      ((acts_unlock (l := .outgoing) (hsub (.inl rfl))).comp
      (acts_outgoing [] (hsub (.inr rfl))))) fun r _ hr => ?_
    simp only [mainStep, hr, hm]
  | responding response =>
    have hsub := hheld .outgoing (by rw [hm]; exact List.mem_cons_self)
    refine touches_of_main ((acts_goto .idle main_mem).comp
      ((acts_unlock (l := .outgoing) (hsub (.inl rfl))).comp
      (acts_outgoing (s.outgoing ++ [response]) (hsub (.inr rfl))))) fun r hr hr' => ?_
    have hout : r.outgoing = s.outgoing := hr .outgoing (hsub (.inr rfl))
    simp only [mainStep, hr', hm, hout]
  | stopHead =>
    have hsub := hheld .workerlist (by rw [hm]; exact List.mem_cons_self)
    cases hl : s.pool.workers.toList with
    | nil =>
      refine touches_of_main ((acts_goto .idle main_mem).comp
        (acts_unlock (l := .workerlist) (hsub (.inl rfl))))
        fun r hr hr' => ?_
      have hpool : r.pool = s.pool := hr .pool (hsub (.inr rfl))
      simp only [mainStep, hr', hm, hpool, hl]
    | cons i rest =>
      refine touches_of_main (acts_goto (.stopMessageLock i.1) main_mem) fun r hr hr' => ?_
      have hpool : r.pool = s.pool := hr .pool (hsub (.inr rfl))
      simp only [mainStep, hr', hm, hpool, hl]
  | moving worker =>
    have hsub := hheld .workerlist (by rw [hm]; exact List.mem_cons_self)
    refine touches_of_main ((acts_goto .stopHead main_mem).comp
      (acts_pool (s.pool.moveToExiting worker) (hsub (.inr rfl))))
      fun r hr hr' => ?_
    have hpool : r.pool = s.pool := hr .pool (hsub (.inr rfl))
    simp only [mainStep, hr', hm, hpool]
  | joinHead =>
    have hsub := hheld .workerlist (by rw [hm]; exact List.mem_cons_self)
    cases hn : s.pool.joinNext with
    | waiting worker =>
      refine touches_of_main ((acts_goto (.joinWait worker) main_mem).comp
        (acts_unlock (l := .workerlist) (hsub (.inl rfl)))) fun r hr hr' => ?_
      have hpool : r.pool = s.pool := hr .pool (hsub (.inr rfl))
      simp only [mainStep, hr', hm, hpool, hn]
    | out | exited =>
      refine touches_of_main (acts_goto .exitedHead main_mem) fun r hr hr' => ?_
      have hpool : r.pool = s.pool := hr .pool (hsub (.inr rfl))
      simp only [mainStep, hr', hm, hpool, hn]
  | erasing worker =>
    have hsub := hheld .workerlist (by rw [hm]; exact List.mem_cons_self)
    refine touches_of_main ((acts_goto
      (if (s.pool.joinErase worker).1 then .deleteLock worker true else .joinHead)
      main_mem).comp (acts_pool (s.pool.joinErase worker).2 (hsub (.inr rfl)))) fun r hr hr' => ?_
    have hpool : r.pool = s.pool := hr .pool (hsub (.inr rfl))
    simp only [mainStep, hr', hm, hpool]
  | exitedHead =>
    have hsub := hheld .workerlist (by rw [hm]; exact List.mem_cons_self)
    cases hl : s.pool.exitedWorkers with
    | nil =>
      refine touches_of_main ((acts_goto .idle main_mem).comp
        (acts_unlock (l := .workerlist) (hsub (.inl rfl))))
        fun r hr hr' => ?_
      have hpool : r.pool = s.pool := hr .pool (hsub (.inr rfl))
      simp only [mainStep, hr', hm, hpool, hl]
    | cons worker rest =>
      refine touches_of_main (acts_goto (.exitedWait worker) main_mem) fun r hr hr' => ?_
      have hpool : r.pool = s.pool := hr .pool (hsub (.inr rfl))
      simp only [mainStep, hr', hm, hpool, hl]
  | deleting worker first =>
    have hmessage := hheld (.message worker) (by rw [hm]; exact List.mem_cons_self)
    have hsub := hheld .workerlist (by rw [hm]; exact List.mem_cons_of_mem _ List.mem_cons_self)
    have hobject : object worker ⊆ footprint s (.main fresh) :=
      fun c hc => objects_subset (by rw [hm]; exact hc)
    cases first with
    | true =>
      refine touches_of_main ((acts_goto .joinHead main_mem).comp
        ((acts_unlock (l := .message worker) (hmessage (.inl rfl))).comp (acts_erase hobject)))
          fun r _ hr => ?_
      simp only [mainStep, hr, hm]
    | false =>
      refine touches_of_main ((acts_goto .exitedHead main_mem).comp
        ((acts_unlock (l := .message worker) (hmessage (.inl rfl))).comp
          ((acts_pool { s.pool with exitedWorkers := s.pool.exitedWorkers.tail }
            (hsub (.inr rfl))).comp
            (acts_erase hobject)))) fun r hr hr' => ?_
      have hpool : r.pool = s.pool := hr .pool (hsub (.inr rfl))
      simp only [mainStep, hr', hm, hpool]

/-! Steps of different threads touch different data. -/

def Act.tid : Act → Tid
  | .call _ | .main _ => .main
  | .thread w => .worker w

def State.locks (s : State) : Act → List Lock
  | .call _ => []
  | .main _ => s.main.locks
  | .thread w => (s.threads.find w).elim [] fun t => t.pc.locks w

variable {a b : Act} {c : Cell} {l' : Lock}

theorem touches_of_step (h : step s a = some s') : Touches get (footprint s a) (step · a) s := by
  cases a with
  | call call =>
    obtain ⟨hm, -⟩ := Option.ite_none_right_eq_some.mp h
    refine ⟨_, acts_goto call.enter rfl, fun r hr => ?_⟩
    have hm' : r.main = .idle := (hr .main rfl).trans hm
    exact if_pos hm'
  | main fresh => exact touches_main h
  | thread w =>
    obtain ⟨t, ht, h⟩ := Option.bind_eq_some_iff.mp h
    exact touches_thread ht h

/-- A lock that the step takes is free. -/
theorem free_of_wants (h : step s a = some s') (hw : (graph s).wants a.tid = some l) :
    s.owner l = none := by
  cases a with
  | call call =>
    obtain ⟨hm, -⟩ := Option.ite_none_right_eq_some.mp h
    simp only [Act.tid, graph, hm, MainPc.wants] at hw
    cases hw
  | main fresh =>
    have hstep : mainStep s fresh = some s' := h
    simp only [Act.tid, graph] at hw
    cases hm : s.main with
    | sendLock | messageLock | drainLock | responseLock | stopLock | stopMessageLock | joinLock
    | relock | deleteLock =>
      simp only [hm, MainPc.wants, Option.some.injEq] at hw
      simp only [mainStep, hm] at hstep
      rw [← hw]
      exact (lockMain_some hstep).1
    | idle | sending | pushing | sent | draining | responding | stopHead | stopping | moving
    | joinHead | joinWait
    | erasing | exitedHead | exitedWait | deleting =>
      simp only [hm, MainPc.wants] at hw
      cases hw
  | thread w =>
    obtain ⟨t, ht, hstep⟩ := Option.bind_eq_some_iff.mp h
    simp only [Act.tid, graph, ht, Option.bind_some] at hw
    cases hc : t.pc with
    | handledLock | messageLock | responseLock | exitLock =>
      simp only [hc, ThreadPc.wants, Option.some.injEq] at hw
      simp only [threadStep, hc] at hstep
      rw [← hw]
      obtain ⟨s₁, h₁, -⟩ := Option.map_eq_some_iff.mp hstep
      exact (lock_some h₁).1
    | entering | handled | checking | idle | handling | responding | exiting | left | ended =>
      simp only [hc, ThreadPc.wants] at hw
      cases hw

theorem mem_locks (hl : l ∈ s.locks a) : (graph s).wants a.tid = some l ∨ l ∈ s.held a.tid := by
  cases a with
  | call => cases hl
  | main fresh =>
    rcases List.mem_append.mp hl with hl | hl
    · exact .inl (Option.mem_toList.mp hl)
    · exact .inr hl
  | thread w =>
    simp only [State.locks] at hl
    cases ht : s.threads.find w with
    | none =>
      rw [ht] at hl
      cases hl
    | some t =>
      rw [ht] at hl
      rcases List.mem_append.mp hl with hl | hl
      · refine .inl ?_
        simp only [Act.tid, graph, ht, Option.bind_some]
        exact Option.mem_toList.mp hl
      · refine .inr ?_
        simp only [Act.tid, State.held, ht, Option.elim_some]
        exact hl

theorem locks_ne (hheld : Held s) (hne : a.tid ≠ b.tid) (ha : (step s a).isSome)
    (hb : (step s b).isSome)
    (hlock : ∀ l, ¬ ((graph s).wants a.tid = some l ∧ (graph s).wants b.tid = some l))
    (hl : l ∈ s.locks a)
    (hl' : l' ∈ s.locks b) : l ≠ l' := by
  rintro rfl
  obtain ⟨s₁, ha⟩ := Option.isSome_iff_exists.mp ha
  obtain ⟨s₂, hb⟩ := Option.isSome_iff_exists.mp hb
  rcases mem_locks hl with hwa | hha <;> rcases mem_locks hl' with hwb | hhb
  · exact hlock l ⟨hwa, hwb⟩
  · have howner := (hheld l b.tid).mpr hhb
    rw [free_of_wants ha hwa] at howner
    cases howner
  · have howner := (hheld l a.tid).mpr hha
    rw [free_of_wants hb hwb] at howner
    cases howner
  · have howner := (hheld l a.tid).mpr hha
    rw [(hheld l b.tid).mpr hhb] at howner
    exact hne (Option.some.inj howner).symm

theorem Lock.cells_disjoint (h : c ∈ l.cells) (h' : c ∈ l'.cells) : l = l' := by
  cases l <;> cases l' <;> simp only [Lock.cells, Set.mem_insert_iff, Set.mem_singleton_iff]
    at h h' <;>
    rcases h with rfl | rfl <;> rcases h' with h' | h' <;> simp_all

/-- What a worker touches: its own state, and what its locks guard. -/
theorem mem_footprint_thread (hc : c ∈ footprint s (.thread w)) :
    c = .run w ∨ ∃ l ∈ s.locks (.thread w), c ∈ l.cells := by
  rcases hc with hc | hc
  · exact .inl hc
  · refine .inr ?_
    cases ht : s.threads.find w with
    | none =>
      rw [ht] at hc
      exact hc.elim
    | some t =>
      rw [ht] at hc
      obtain ⟨l, hl, hc⟩ := hc
      refine ⟨l, ?_, hc⟩
      simp only [State.locks, ht, Option.elim_some]
      exact hl

/-- The locks of a worker guard no other worker's object. -/
theorem eq_of_object {v : Ptr} (hc : c ∈ footprint s (.thread w)) (hv : c ∈ object v) : v = w := by
  rcases mem_footprint_thread hc with rfl | ⟨l, hl, hcl⟩
  · simpa [object, eq_comm] using hv
  · cases l with
    | workerlist | outgoing =>
      rcases hcl with rfl | rfl <;> simp [object] at hv
    | message u =>
      have hu : u = w := by
        simp only [State.locks] at hl
        cases ht : s.threads.find w with
        | none =>
          rw [ht] at hl
          cases hl
        | some t =>
          rw [ht, Option.elim_some] at hl
          cases hpc : t.pc <;> simp_all [ThreadPc.locks, ThreadPc.wants, ThreadPc.held]
      rcases hcl with rfl | rfl
      · simp [object] at hv
      · simp only [object, Set.mem_insert_iff, Set.mem_singleton_iff, reduceCtorEq,
          Cell.mailbox.injEq, false_or, or_false] at hv
        exact hv.symm.trans hu

theorem none_of_ended (h : Ended s w) : step s (.thread w) = none := by
  obtain ⟨t, ht, hpc⟩ := h
  simp only [step, ht, Option.bind_some, threadStep, hpc]

theorem objects_idle (hi : Inv s) (h : mainStep s fresh = some s') (hc : c ∈ s.main.objects fresh) :
    ∃ v, c ∈ object v ∧ step s (.thread v) = none := by
  have hfits := hi.fits
  have hwaited : ∀ {worker pc}, waited s worker pc = some s' →
    c ∈ ({.run worker, .joined worker} : Set Cell) →
      ∃ v, c ∈ object v ∧ step s (.thread v) = none := fun hw hc => by
    obtain ⟨hjoins, -⟩ := Option.ite_none_right_eq_some.mp hw
    refine ⟨_, ?_, none_of_ended (hi.ended_of_joins hjoins)⟩
    rcases hc with rfl | rfl <;> simp [object]
  cases hm : s.main with
  | sending group msg =>
    rw [hm] at hc
    simp only [mainStep, hm] at h
    obtain ⟨hfresh, -⟩ := Option.ite_none_right_eq_some.mp h
    refine ⟨fresh, hc, ?_⟩
    simp only [step, SortedMap.not_mem_iff.mp hfresh, Option.bind_none]
  | joinWait worker =>
    rw [hm] at hc
    simp only [mainStep, hm] at h
    exact hwaited h hc
  | exitedWait worker =>
    rw [hm] at hc
    simp only [mainStep, hm] at h
    exact hwaited h hc
  | deleting worker first =>
    rw [hm] at hc
    cases first with
    | true => simp [MainFits, hm] at hfits
    | false =>
      simp only [MainFits, hm] at hfits
      exact ⟨worker, hc, none_of_ended hfits.2⟩
  | idle | sendLock | messageLock | pushing | sent | drainLock | draining | responseLock
  | responding | stopLock | stopHead
  | stopMessageLock | stopping | moving | joinLock | joinHead | relock | erasing | exitedHead
  | deleteLock =>
    rw [hm] at hc
    exact hc.elim

theorem main_thread_disjoint (hi : Inv s) (ha : mainStep s fresh = some s')
    (hb : (step s (.thread w)).isSome)
    (hlocks : ∀ l ∈ s.locks (.main fresh), ∀ l' ∈ s.locks (.thread w), l ≠ l')
    (hc : c ∈ footprint s (.main fresh)) : c ∉ footprint s (.thread w) := by
  intro hc'
  rcases hc with (rfl | hc) | ⟨l, hl, hcl⟩
  · rcases mem_footprint_thread hc' with h | ⟨l, -, h⟩
    · cases h
    · cases l <;> simp [Lock.cells] at h
  · obtain ⟨v, hv, hnone⟩ := objects_idle hi ha hc
    obtain rfl := eq_of_object hc' hv
    rw [hnone] at hb
    cases hb
  · rcases mem_footprint_thread hc' with rfl | ⟨l', hl', hcl'⟩
    · cases l <;> simp [Lock.cells] at hcl
    · exact hlocks l hl l' hl' (Lock.cells_disjoint hcl hcl')

theorem threads_disjoint {v : Ptr} (hne : w ≠ v)
    (hlocks : ∀ l ∈ s.locks (.thread w), ∀ l' ∈ s.locks (.thread v), l ≠ l')
    (hc : c ∈ footprint s (.thread w)) : c ∉ footprint s (.thread v) := by
  intro hc'
  rcases mem_footprint_thread hc with rfl | ⟨l, hl, hcl⟩
  · exact hne (eq_of_object hc' (by simp [object]))
  · rcases mem_footprint_thread hc' with rfl | ⟨l', hl', hcl'⟩
    · cases l <;> simp [Lock.cells] at hcl
    · exact hlocks l hl l' hl' (Lock.cells_disjoint hcl hcl')

theorem call_thread_disjoint {call : Call} (hc : c ∈ footprint s (.call call)) :
    c ∉ footprint s (.thread w) := by
  intro hc'
  obtain rfl : c = .main := hc
  rcases mem_footprint_thread hc' with h | ⟨l, -, h⟩
  · cases h
  · cases l <;> simp [Lock.cells] at h

theorem footprints_disjoint (hi : Inv s) (hne : a.tid ≠ b.tid) (ha : (step s a).isSome)
    (hb : (step s b).isSome)
    (hlock : ∀ l, ¬ ((graph s).wants a.tid = some l ∧ (graph s).wants b.tid = some l)) :
    ∀ c ∈ footprint s a, c ∉ footprint s b := by
  have hlocks : ∀ l ∈ s.locks a, ∀ l' ∈ s.locks b, l ≠ l' := fun l hl l' hl' =>
    locks_ne hi.held hne ha hb hlock hl hl'
  obtain ⟨s₁, hs₁⟩ := Option.isSome_iff_exists.mp ha
  obtain ⟨s₂, hs₂⟩ := Option.isSome_iff_exists.mp hb
  intro c hc hc'
  cases a with
  | call call =>
    cases b with
    | call | main => exact hne rfl
    | thread v => exact call_thread_disjoint hc hc'
  | main fresh =>
    cases b with
    | call | main => exact hne rfl
    | thread v => exact main_thread_disjoint hi hs₁ hb hlocks hc hc'
  | thread w =>
    cases b with
    | call call => exact call_thread_disjoint hc' hc
    | main fresh =>
      exact main_thread_disjoint hi hs₂ ha (fun l hl l' hl' => (hlocks l' hl' l hl).symm) hc' hc
    | thread v => exact threads_disjoint (fun he => hne (by rw [he])) hlocks hc hc'

/-- In every state that the threads can reach, steps of different threads can be taken in either
order and lead to the same state, unless both take the same lock. -/
theorem steps_commute {s₁ s₂ : State} (h : Reachable step free init s) (hne : a.tid ≠ b.tid)
    (ha : step s a = some s₁)
    (hb : step s b = some s₂)
    (hlock : ∀ l, ¬ ((graph s).wants a.tid = some l ∧ (graph s).wants b.tid = some l)) :
    ∃ s', step s₁ b = some s' ∧ step s₂ a = some s' := by
  obtain ⟨hi, -⟩ := toUse_reachable h
  refine (touches_of_step ha).commute state_ext (touches_of_step hb) ?_ ha hb
  exact footprints_disjoint hi hne (by rw [ha]; rfl) (by rw [hb]; rfl) hlock

/-- The main thread is about to take the lock of the pool, for a message to a second worker, while
the first worker answers. -/
def twoAtWork : List Act :=
  [.call (.sendToWorker (text "search") ⟨0, text "0", text "Gdb/a", text "x"⟩), .main 1, .main 1,
    .main 1, .main 1, .main 1,
    .thread 1, .thread 1, .thread 1,
      .call (.sendToWorker (text "search") ⟨0, text "1", text "Gdb/a", text "y"⟩)]

theorem steps_commute_twoAtWork :
    ∃ s s₁ s₂ s', exec step free init twoAtWork = some s ∧ step s (.main 2) = some s₁ ∧
    step s (.thread 1) = some s₂ ∧ step s₁ (.thread 1) = some s' ∧ step s₂ (.main 2) = some s' := by
  obtain ⟨s, hs⟩ : ∃ s, exec step free init twoAtWork = some s := ⟨_, rfl⟩
  have hr : Reachable step free init s := reachable_of_exec hs
  obtain ⟨s₁, hs₁⟩ : ∃ s₁, step s (.main 2) = some s₁ := by
    cases hs
    exact ⟨_, rfl⟩
  obtain ⟨s₂, hs₂⟩ : ∃ s₂, step s (.thread 1) = some s₂ := by
    cases hs
    exact ⟨_, rfl⟩
  have hnone : (graph s).wants (.worker 1) = none := by
    cases hs
    rfl
  obtain ⟨s', h₁, h₂⟩ := steps_commute hr (a := .main 2) (b := .thread 1)
      (by simp [Act.tid]) hs₁ hs₂ fun l hl => by
    have hwants : (graph s).wants (.worker 1) = some l := hl.2
    rw [hnone] at hwants
    cases hwants
  exact ⟨s, s₁, s₂, s', hs, hs₁, hs₂, h₁, h₂⟩

end Xaprun.Locks
