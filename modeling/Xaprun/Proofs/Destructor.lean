import Xaprun.Proofs.Deletion
import Xaprun.Sanity.Destructor

/-! The destructor of the pool frees the threads if none of them is running. A running one erases
itself from the collection that the destructor walks, under its iterator. -/

namespace Xaprun.Destructor

open Frames WorkerPool PoolUse Lifecycle Runs

variable {s : PoolUse.State} {t t' : State} {c : Walked} {w i : Ptr} {a : Act}

/-! No thread is running. -/

structure Apart (s : PoolUse.State) : Prop where
  disjoint : ∀ w ∈ Walked.exiting.elements s.pool, w ∉ Walked.workers.elements s.pool
  fresh : ∀ c : Walked, ∀ w ∈ c.elements s.pool, s.threads.find w = some .fresh
  exited : ∀ w ∈ s.pool.exitedWorkers, ∀ c : Walked, w ∉ c.elements s.pool
  nodup : s.pool.exitedWorkers.Nodup
  others : ∀ w, (∀ c : Walked, w ∉ c.elements s.pool) →
    Fits False False (w ∈ s.pool.exitedWorkers) (s.threads.find w)

theorem mem_workers_elements {p : WorkerPool} :
    w ∈ Walked.workers.elements p ↔ w ∈ p.workers := SortedMap.mem_mapVals

theorem mem_exiting_elements {p : WorkerPool} :
    w ∈ Walked.exiting.elements p ↔ w ∈ p.exitingWorkers := Iff.rfl

theorem forall_not_mem_elements {p : WorkerPool} :
    (∀ c : Walked, w ∉ c.elements p) ↔ w ∉ p.workers ∧ w ∉ p.exitingWorkers := by
  constructor
  · intro h
    exact ⟨mt mem_workers_elements.mpr (h .workers), h .exiting⟩
  · rintro ⟨hw, hx⟩ c
    cases c with
    | workers => exact mt mem_workers_elements.mp hw
    | exiting => exact hx

theorem status_of_mem_elements (hs : Sound s) (hw : w ∈ c.elements s.pool) :
    w ∉ s.pool.exitedWorkers ∧
      (s.threads.find w = some .fresh ∨ s.threads.find w = some .running) := by
  have hfits := hs.fits w
  unfold FitsAt at hfits
  have hplaced : w ∈ s.pool.workers ∨ w ∈ s.pool.exitingWorkers := by
    cases c with
    | workers => exact .inl (mem_workers_elements.mp hw)
    | exiting => exact .inr hw
  cases ht : s.threads.find w with
  | none =>
    rw [ht] at hfits
    rcases hplaced with hp | hp
    · exact absurd hp hfits.1
    · exact absurd hp hfits.2.1
  | some st =>
    rw [ht] at hfits
    cases st with
    | fresh => exact ⟨hfits.2, .inl rfl⟩
    | running => exact ⟨hfits.2, .inr rfl⟩
    | left | ended =>
      rcases hplaced with hp | hp
      · exact absurd hp hfits.1
      · exact absurd hp hfits.2.1

theorem disjoint_of_sound (hs : Sound s) :
    ∀ w ∈ Walked.exiting.elements s.pool, w ∉ Walked.workers.elements s.pool := by
  intro w hx hw
  exact (hs.represented.disjoint w).1 ⟨mem_workers_elements.mp hw, hx⟩

theorem apart_of_sound (hs : Sound s) (h : ∀ w, s.threads.find w ≠ some .running) : Apart s where
  disjoint := disjoint_of_sound hs
  fresh c w hw := (status_of_mem_elements hs hw).2.resolve_right (h w)
  exited w hw c hc := (status_of_mem_elements hs hc).1 hw
  nodup := hs.nodup
  others w hw := by
    have hfits := hs.fits w
    obtain ⟨hwork, hexit⟩ := forall_not_mem_elements.mp hw
    simpa only [FitsAt, hwork, hexit] using hfits

structure Quiet (s : PoolUse.State) (t : State) : Prop extends Undisturbed s t where
  exited : ∀ w ∈ t.use.pool.exitedWorkers, ∀ c : Walked, w ∉ c.elements s.pool
  nodup : t.use.pool.exitedWorkers.Nodup
  others : ∀ w, (∀ c : Walked, w ∉ c.elements s.pool) →
    Fits False False (w ∈ t.use.pool.exitedWorkers) (t.use.threads.find w)
  reaping : ∀ w, t.place = .reaping w → t.use.pool.exitedWorkers.head? = some w
  done : t.place = .done → t.use.pool.exitedWorkers = []

theorem quiet_start (h : Apart s) : Quiet s (start s) where
  toUndisturbed := undisturbed_start s
  exited := h.exited
  nodup := h.nodup
  others := h.others
  reaping _ hw := by cases hw
  done hd := by cases hd

theorem Quiet.reaped (h : Quiet s t) (hplace : t.place = .reaping w) :
    ∃ rest, t.use.pool.exitedWorkers = w :: rest ∧ w ∉ rest ∧ ∀ c :
      Walked, w ∉ c.elements s.pool := by
  obtain ⟨rest, hrest⟩ := List.head?_eq_some_iff.mp (h.reaping w hplace)
  refine ⟨rest, hrest, ?_, h.exited w (by rw [hrest]; simp)⟩
  have hnodup := h.nodup
  rw [hrest] at hnodup
  exact (List.nodup_cons.mp hnodup).1

theorem Quiet.proceed (h : Quiet s t) (hp : proceed t = some t') : Quiet s t' := by
  have hundisturbed : Undisturbed s t' :=
    h.toUndisturbed.proceed (fun w hw => (h.reaped hw).choose_spec.2.2) hp
  cases h.goes hp with
  | turn hturn =>
    refine ⟨hundisturbed, h.exited, h.nodup, h.others, ?_, ?_⟩
    · rintro w rfl
      generalize t.place = q at hturn
      cases hturn with
      | reap hl => exact congrArg List.head? hl
    · rintro rfl
      generalize t.place = q at hturn
      cases hturn with
      | finish hl => exact hl
  | @delete c i hplace hi =>
    refine ⟨hundisturbed, h.exited, h.nodup, fun w hw => ?_, ?_, ?_⟩
    · have hfind : (t.use.threads.erase i).find w = t.use.threads.find w := by
        rw [SortedMap.find_erase, if_neg]
        rintro rfl
        exact hw c hi
      exact hfind ▸ h.others w hw
    · intro w hw
      cases hw
    · intro hd
      cases hd
  | @reaped w hplace hjoins =>
    obtain ⟨rest, hrest, hnot, -⟩ := h.reaped hplace
    have hexited := h.exited
    have hnodup := h.nodup
    have hothers := h.others
    rw [hrest] at hexited hnodup hothers
    refine ⟨hundisturbed, ?_, ?_, fun w' hw' => ?_, ?_, ?_⟩
    · dsimp only
      rw [hrest]
      exact fun w' hw' => hexited w' (List.mem_cons_of_mem w hw')
    · dsimp only
      rw [hrest]
      exact (List.nodup_cons.mp hnodup).2
    · dsimp only
      rw [hrest, SortedMap.find_erase]
      split_ifs with heq
      · exact ⟨not_false, not_false, heq ▸ hnot⟩
      · have hfits := hothers w' hw'
        simpa [heq] using hfits
    · intro v hv
      cases hv
    · intro hd
      cases hd

theorem Quiet.empty (h : Quiet s t) (hdone : t.place = .done) (w : Ptr) :
    t.use.threads.find w = none := by
  by_cases hout : ∀ c : Walked, w ∉ c.elements s.pool
  · have hfits := h.others w hout
    rw [h.done hdone] at hfits
    cases hw : t.use.threads.find w with
    | none => rfl
    | some st => cases st <;> simp [hw, Fits] at hfits
  · push Not at hout
    obtain ⟨c, hc⟩ := hout
    apply h.gone c w hc
    rw [hdone]
    cases c with
    | workers => exact .inl hc
    | exiting => exact .inr hc

def base (p : WorkerPool) : Walked → ℕ
  | .workers => 4 * (Walked.exiting.elements p).toList.length + 3
  | .exiting => 2

def placeRank (p : WorkerPool) : Place → ℕ
  | .stopping i =>
    2 * (Walked.workers.elements p).ahead i + 4 * (Walked.workers.elements p).toList.length +
      base p .workers + 1
  | .stopped i =>
    2 * (Walked.workers.elements p).ahead ((Walked.workers.elements p).after i) + 1 +
      4 * (Walked.workers.elements p).toList.length + base p .workers + 1
  | .walking c i => 4 * (c.elements p).ahead i + base p c
  | .joining c i => 4 * (c.elements p).ahead ((c.elements p).after i) + 3 + base p c
  | .joined c i => 4 * (c.elements p).ahead ((c.elements p).after i) + 2 + base p c
  | .deleted c i => 4 * (c.elements p).ahead ((c.elements p).after i) + 1 + base p c
  | .exited => 1
  | .reaping _ | .done | .dangling => 0

def leaving (st : Status) : ℕ := if st = .left then 1 else 0

/-- A bound on the steps that are left. -/
def rank (p : WorkerPool) (t : State) : ℕ :=
  placeRank p t.place + 2 * t.use.pool.exitedWorkers.length + t.use.threads.total leaving

section Quiet

variable (ha : Apart s)
include ha

theorem Quiet.fresh (h : Quiet s t) (hi : i ∈ c.elements s.pool) (hg : ¬ Gone s.pool i t.place) :
    t.use.threads.find i = some .fresh := (h.there c i hi hg).trans (ha.fresh c i hi)

theorem Quiet.left (h : Quiet s t) {st : Status} (hw : t.use.threads.find w = some st)
    (hst : st ≠ .fresh) :
    (∀ c : Walked, w ∉ c.elements s.pool) ∧ w ∈ t.use.pool.exitedWorkers ∧ st ≠ .running := by
  have hout : ∀ c : Walked, w ∉ c.elements s.pool := by
    intro c hc
    by_cases hg : Gone s.pool w t.place
    · rw [h.gone c w hc hg] at hw
      cases hw
    · rw [h.fresh ha hc hg] at hw
      exact hst (Option.some.inj hw).symm
  have hfits := h.others w hout
  rw [hw] at hfits
  refine ⟨hout, ?_⟩
  cases st with
  | fresh => exact absurd rfl hst
  | running => simp [Fits] at hfits
  | left | ended => exact ⟨hfits.2.2, by simp⟩

theorem Quiet.ends (h : Quiet s t) (hw : t.use.threads.find w = some .left) :
    Quiet s { t with use := { t.use with threads := t.use.threads.modify w fun _ => .ended } } := by
  obtain ⟨hout, hmem, -⟩ := h.left ha hw (by simp)
  have hfind := find_setStatus hw .ended
  have hother : ∀ c : Walked, ∀ w' ∈ c.elements s.pool,
      (t.use.threads.modify w fun _ => .ended).find w' = t.use.threads.find w' := by
    intro c w' hw'
    rw [hfind, if_neg]
    rintro rfl
    exact hout c hw'
  refine ⟨⟨h.joining, h.elements, h.held, fun c w' hw' hg => ?_, fun c w' hw' hg => ?_⟩,
    h.exited, h.nodup,
    fun w' hw' => ?_, h.reaping, h.done⟩
  · exact (hother c w' hw').trans (h.gone c w' hw' hg)
  · exact (hother c w' hw').trans (h.there c w' hw' hg)
  · change Fits False False _ ((t.use.threads.modify w fun _ => .ended).find w')
    rw [hfind]
    split_ifs with heq
    · exact ⟨not_false, not_false, heq ▸ hmem⟩
    · exact h.others w' hw'

theorem Quiet.thread {op : Op} (h : Quiet s t) (hop : a.op = some op) (hs : step t a = some t') :
    ∃ w, a = .threadEnds w ∧ t.use.threads.find w = some .left ∧
      t' = { t with use := { t.use with threads := t.use.threads.modify w fun _ => .ended } } := by
  have hnone : ∀ w, t.use.threads.find w ≠ some .running := by
    intro w hw
    exact (h.left ha hw (by simp)).2.2 rfl
  unfold step at hs
  rw [hop] at hs
  obtain ⟨use, huse, rfl⟩ := Option.map_eq_some_iff.mp hs
  have hmoves := moves_of_step huse
  cases a with
  | proceed => cases hop
  | workerMessageHandled w r =>
    obtain rfl := Option.some.inj hop
    cases hmoves with
    | handled hw => exact absurd hw (hnone w)
  | workerExited w =>
    obtain rfl := Option.some.inj hop
    cases hmoves with
    | exited _ hw => exact absurd hw (hnone w)
  | threadEnds w =>
    obtain rfl := Option.some.inj hop
    cases hmoves with
    | ended hw => exact ⟨w, rfl, hw, rfl⟩

theorem Quiet.step (h : Quiet s t) (hs : step t a = some t') : Quiet s t' := by
  cases hop : a.op with
  | none =>
    unfold Destructor.step at hs
    rw [hop] at hs
    exact h.proceed hs
  | some op =>
    obtain ⟨w, -, hw, rfl⟩ := h.thread ha hop hs
    exact h.ends ha hw

theorem quiet_reachable (h : Reachable Destructor.step free (start s) t) : Quiet s t :=
  h.invariant (quiet_start ha) fun _ _ _ _ hs hi => hi.step ha hs

/-- The destructor does not get stuck: a thread that it waits for has left and will end. -/
theorem Quiet.goesOn (h : Quiet s t) : t.place = .done ∨ ∃ a t', Destructor.step t a = some t' := by
  have hheld := h.held
  cases hp : Destructor.proceed t with
  | some t' => exact .inr ⟨.proceed, t', hp⟩
  | none =>
    obtain hplace | hplace | ⟨c, i, hplace, hwait⟩ | ⟨w, hplace, hwait⟩ := waits_of_proceed_none hp
    · exact .inl hplace
    · rw [hplace] at hheld
      exact hheld.elim
    · rw [hplace] at hheld
      have hi : i ∈ c.elements s.pool := hheld
      have hgone : ¬ Gone s.pool i t.place := hplace ▸ (not_gone ha.disjoint hi).2.1
      rw [h.fresh ha hi hgone] at hwait
      cases hwait
    · obtain ⟨rest, hrest, -, hout⟩ := h.reaped hplace
      have hfits := h.others w hout
      rw [hrest] at hfits
      have hleft : t.use.threads.find w = some .left := by
        cases hw : t.use.threads.find w with
        | none =>
          rw [hw] at hfits
          exact absurd List.mem_cons_self hfits.2.2
        | some st =>
          rw [hw] at hwait
          cases st with
          | left => rfl
          | fresh | ended => cases hwait
          | running => exact absurd rfl (h.left ha hw (by simp)).2.2
      refine .inr ⟨.threadEnds w,
        { t with use := { t.use with threads := t.use.threads.modify w fun _ => .ended } }, ?_⟩
      simp [Destructor.step, Act.op, PoolUse.step, hleft]

/-! What happens to the threads. -/

theorem Quiet.accept_turn {live : Ptr → Option Phase} {q : Place} (h : Quiet s t)
    (hm : Agrees live t.use)
    (hturn : Turns s.pool t.use t.place q) : acceptAll live (emitProceed t) = some live := by
  have hlive : ∀ {i : Ptr} {c : Walked}, i ∈ c.elements s.pool → ¬ Gone s.pool i t.place →
      i ∈ t.use.threads :=
    fun hi hg => SortedMap.mem_of_find (h.fresh ha hi hg)
  unfold emitProceed
  generalize hplace : t.place = place at hturn hlive
  cases hturn with
  | stoppedAll | advanceStop | walkedWorkers | walkedExiting | advance => rfl
  | @stop i hi =>
    dsimp only
    rw [h.elements, if_pos hi]
    exact acceptAll_liveUses hm (by simpa using hlive hi not_false)
  | @join c i hi =>
    dsimp only
    rw [h.elements, if_pos hi]
    exact acceptAll_liveUses hm (by simpa using hlive hi (not_gone ha.disjoint hi).1)
  | @joined c i hjoins =>
    have hheld := h.held
    rw [hplace] at hheld
    have hi : i ∈ c.elements s.pool := hheld
    have hgone : ¬ Gone s.pool i t.place := hplace ▸ (not_gone ha.disjoint hi).2.1
    have hcreated := hm.fresh (h.fresh ha hi hgone)
    have hjoin : acceptAll live [⟨.join, i⟩] = some (Function.update live i (some .created)) :=
      acceptAll_singleton (by rw [hcreated]; rfl)
    rw [← hcreated, Function.update_eq_self] at hjoin
    exact hjoin
  | finish hl =>
    dsimp only
    rw [hl]
    rfl
  | @reap w rest hl =>
    dsimp only
    rw [hl]
    apply acceptAll_liveUses hm
    have hmem : w ∈ t.use.pool.exitedWorkers := by
      rw [hl]
      exact List.mem_cons_self
    have hfits := h.others w (h.exited w hmem)
    simp only [List.head?_cons, Option.toList_some, List.mem_singleton, forall_eq]
    by_contra hnone
    rw [SortedMap.not_mem_iff.mp hnone] at hfits
    exact hfits.2.2 hmem

theorem Quiet.accept_proceed {live : Ptr → Option Phase} (h : Quiet s t) (hm : Agrees live t.use)
    (hp : Destructor.proceed t = some t') :
    ∃ live', acceptAll live (emitProceed t) = some live' ∧ Agrees live' t'.use := by
  cases h.goes hp with
  | turn hturn => exact ⟨live, h.accept_turn ha hm hturn, hm⟩
  | @delete c i hplace hi =>
    have hgone : ¬ Gone s.pool i t.place := hplace ▸ (not_gone ha.disjoint hi).2.2
    have hcreated := hm.fresh (h.fresh ha hi hgone)
    refine ⟨Function.update live i none, ?_, hm.update (o := none) trivial fun v =>
      SortedMap.find_erase _ _ _⟩
    unfold emitProceed
    rw [hplace]
    dsimp only
    rw [h.elements, if_pos hi]
    exact acceptAll_singleton (by rw [hcreated]; rfl)
  | @reaped w hplace hjoins =>
    obtain ⟨rest, hrest, -, hout⟩ := h.reaped hplace
    have hfits := h.others w hout
    have hended : t.use.threads.find w = some .ended := by
      rcases status_of_joins hjoins with hw | hw
      · rw [hw] at hfits
        simp [Fits] at hfits
      · exact hw
    refine ⟨Function.update live w none, ?_, hm.update (o := none) trivial fun v =>
      SortedMap.find_erase _ _ _⟩
    unfold emitProceed
    rw [hplace]
    exact accept_ended hm hended

/-- The events so far are those of orderly lives, and create no thread. -/
structure Recorded (s : PoolUse.State) (es : List Event) (t : State) : Prop where
  quiet : Quiet s t
  lives : ∃ live, acceptAll (lives s) es = some live ∧ Agrees live t.use
  created : ∀ w, es.count ⟨.create, w⟩ = 0

omit ha in
theorem agrees_lives (s : PoolUse.State) (joining : Joining) :
    Agrees (lives s) { s with joining } := by
  intro w
  change Matches (s.threads.find w) ((s.threads.find w).map phase)
  rcases s.threads.find w with _ | st
  · trivial
  · cases st <;> trivial

omit ha in
theorem count_create_emitProceed (t : State) (w : Ptr) :
    (emitProceed t).count ⟨.create, w⟩ = 0 := by
  apply List.count_eq_zero_of_not_mem
  unfold emitProceed uses
  split <;> (try split_ifs) <;> simp

theorem Recorded.step {es : List Event} (h : Recorded s es t) (hs : Destructor.step t a = some t') :
    Recorded s (es ++ emit t a) t' := by
  obtain ⟨live, haccept, hagrees⟩ := h.lives
  have hemit : (∃ live', acceptAll live (emit t a) = some live' ∧ Agrees live' t'.use) ∧
      ∀ w, (emit t a).count ⟨.create, w⟩ = 0 := by
    unfold emit
    cases hop : a.op with
    | none =>
      have hp := hs
      unfold Destructor.step at hp
      rw [hop] at hp
      exact ⟨h.quiet.accept_proceed ha hagrees hp, count_create_emitProceed t⟩
    | some op =>
      obtain ⟨w, rfl, hw, rfl⟩ := h.quiet.thread ha hop hs
      obtain rfl := Option.some.inj hop
      refine ⟨⟨Function.update live w (some .ended), ?_, ?_⟩, by simp [PoolUse.emit]⟩
      · exact acceptAll_singleton (by rw [hagrees.running (.inr hw)]; rfl)
      · exact hagrees.update (o := some .ended) trivial (find_setStatus hw .ended)
  obtain ⟨⟨live', haccept', hagrees'⟩, hcreate⟩ := hemit
  refine ⟨h.quiet.step ha hs, ⟨live', ?_, hagrees'⟩, fun w => ?_⟩
  · rw [acceptAll_append, haccept, Option.bind_some, haccept']
  · rw [List.count_append, h.created, hcreate]

theorem recorded_logged {es : List Event} (h : Logged Destructor.step free emit (start s) es t) :
    Recorded s es t := by
  refine h.invariant (Recorded s) ⟨quiet_start ha, ⟨_, rfl, agrees_lives s .out⟩, fun _ => rfl⟩ ?_
  intro es t a t' _ _ hs hi
  exact hi.step ha hs

omit ha in
theorem Recorded.once {es : List Event} (h : Recorded s es t) (hdone : t.place = .done)
    (hw : w ∈ s.threads) :
    es.count ⟨.delete, w⟩ = 1 := by
  obtain ⟨live, haccept, hagrees⟩ := h.lives
  have hcount := count_create_add haccept w
  have hend : live w = none := hagrees.none (SortedMap.not_mem_iff.mpr (h.quiet.empty hdone w))
  obtain ⟨st, hst⟩ := SortedMap.mem_iff_exists.mp hw
  rw [h.created, hend, Destructor.lives, hst] at hcount
  exact hcount.symm

/-! The destructor comes to its end. -/

omit ha in
theorem Turns.rank_lt {p : WorkerPool} {use : PoolUse.State} {q q' : Place} (h : Turns p use q q') :
    placeRank p q' < placeRank p q := by
  have hfirst := fun c : Walked => SortedMap.ahead_first (c.elements p)
  cases h with
  | stoppedAll =>
    simp only [placeRank, base, hfirst]
    omega
  | stop hi | advanceStop hi | join hi =>
    simp only [placeRank, SortedMap.ahead_after hi]
    omega
  | walkedWorkers =>
    simp only [placeRank, base, hfirst]
    omega
  | walkedExiting | finish | reap => simp [placeRank, base, SortedMap.ahead]
  | joined | advance =>
    simp only [placeRank]
    omega

theorem Quiet.rank_lt (h : Quiet s t) (hs : Destructor.step t a = some t') :
    rank s.pool t' < rank s.pool t := by
  unfold rank
  cases hop : a.op with
  | some op =>
    obtain ⟨w, -, hw, rfl⟩ := h.thread ha hop hs
    have hmod := SortedMap.total_modify leaving hw fun _ => .ended
    have herase := SortedMap.total_erase leaving hw
    have hended : leaving .ended = 0 := rfl
    have hleft : leaving .left = 1 := rfl
    dsimp only
    omega
  | none =>
    unfold Destructor.step at hs
    rw [hop] at hs
    cases h.goes hs with
    | turn hturn =>
      have := hturn.rank_lt
      dsimp only
      omega
    | @delete c i hplace hi =>
      have := SortedMap.total_erase_le leaving t.use.threads i
      rw [hplace]
      simp only [placeRank]
      omega
    | @reaped w hplace hjoins =>
      obtain ⟨rest, hrest, -⟩ := h.reaped hplace
      have := SortedMap.total_erase_le leaving t.use.threads w
      rw [hplace, hrest]
      simp only [placeRank, List.tail_cons, List.length_cons]
      omega

theorem length_le_rank {as : List Act} (h : Run Destructor.step free (start s) as t) :
    as.length + rank s.pool t ≤ rank s.pool (start s) := by
  induction h with
  | nil => simp
  | snoc hprev _ hs ih =>
    have hlt := (quiet_reachable ha ⟨_, hprev⟩).rank_lt ha hs
    rw [List.length_append, List.length_singleton]
    omega

theorem frees_of_apart : Frees s where
  iterators t h hd := by
    have hheld := (quiet_reachable ha h).held
    rw [hd] at hheld
    exact hheld
  orderly es t h := by
    obtain ⟨live, haccept, -⟩ := (recorded_logged ha h).lives
    exact ⟨live, haccept⟩
  once es t h hdone w hw := (recorded_logged ha h).once hdone hw
  goesOn t h := (quiet_reachable ha h).goesOn ha
  ends := by
    refine ⟨rank s.pool (start s), fun as t h => ?_⟩
    have := length_le_rank ha h
    omega

end Quiet

/-! A running thread. -/

/-- The destructor gets to `q` while no worker exits. -/
def GetsTo (s : PoolUse.State) (q : Place) : Prop :=
  ∃ t, Reachable step free (start s) t ∧ Undisturbed s t ∧ t.use.pool = s.pool ∧ t.place = q

def Dangles (s : PoolUse.State) : Prop := ∃ t, Reachable step free (start s) t ∧ t.place = .dangling

theorem reachable_proceed {s₀ : State} (h : Reachable step free s₀ t) (hp : proceed t = some t') :
    Reachable step free s₀ t' := h.next (a := .proceed) trivial hp

theorem getsTo_start (s : PoolUse.State) :
    GetsTo s (.stopping (Walked.workers.elements s.pool).first) :=
  ⟨start s, .start, undisturbed_start s, rfl, rfl⟩

theorem GetsTo.next {q q' : Place} (h : GetsTo s q) (hq : ∀ w, q ≠ .reaping w)
    (hp : ∀ t, Undisturbed s t → t.use.pool = s.pool → t.place = q → ∃ t', proceed t = some t' ∧
      t'.place = q') :
    GetsTo s q' := by
  obtain ⟨t, hreach, hu, hpool, hplace⟩ := h
  obtain ⟨t', hp', hplace'⟩ := hp t hu hpool hplace
  have hreap : ∀ w, t.place ≠ .reaping w := hplace ▸ hq
  refine ⟨t', reachable_proceed hreach hp', hu.proceed (fun w hw => absurd hw (hreap w)) hp',
    ?_, hplace'⟩
  cases hu.goes hp' with
  | turn => exact hpool
  | delete => exact hpool
  | @reaped w hw => exact absurd hw (hreap w)

theorem GetsTo.turn {q q' : Place} (h : GetsTo s q) (hturn : Turns s.pool s q q')
    (hstay : ∀ c i, q ≠ .joining c i) (hexited : q ≠ .exited) : GetsTo s q' := by
  refine h.next (fun w hw => ?_) fun t hu hpool hplace => ?_
  · rw [hw] at hturn
    cases hturn
  · refine ⟨{ t with place := q' }, ?_, rfl⟩
    unfold proceed through
    rw [hplace, hpool]
    cases hturn with
    | stoppedAll | walkedWorkers | walkedExiting => rfl
    | stop hi | advanceStop hi | advance hi => simp only [hi, if_true]
    | @join c i hi => cases c <;> simp only [hi, if_true]
    | joined => exact absurd rfl (hstay _ _)
    | finish | reap => exact absurd rfl hexited

theorem GetsTo.round (h : GetsTo s (.walking c (some i)))
    (hd : ∀ w ∈ Walked.exiting.elements s.pool, w ∉ Walked.workers.elements s.pool)
    (hi : i ∈ c.elements s.pool) (hfresh : s.threads.find i = some .fresh) :
    GetsTo s (.walking c ((c.elements s.pool).after i)) := by
  have hjoin : GetsTo s (.joined c i) := by
    apply (h.turn (.join hi) (by simp) (by simp)).next (by simp)
    intro t hu hpool hplace
    have hgone : ¬ Gone s.pool i t.place := hplace ▸ (not_gone hd hi).2.1
    refine ⟨_, proceed_joining hplace ?_, rfl⟩
    rw [hu.there c i hi hgone, hfresh]
    rfl
  have hdelete : GetsTo s (.deleted c i) := by
    apply hjoin.next (by simp)
    intro t hu hpool hplace
    refine ⟨⟨{ t.use with threads := t.use.threads.erase i }, .deleted c i⟩, ?_, rfl⟩
    unfold proceed
    rw [hplace]
    dsimp only
    rw [hpool, if_pos hi]
  exact hdelete.turn (.advance hi) (by simp) (by simp)

theorem getsTo_stopping (s : PoolUse.State) :
    (∀ k ∈ Walked.workers.elements s.pool, GetsTo s (.stopping (some k))) ∧ GetsTo s
    (.stopping none) := by
  apply SortedMap.iterate (P := fun i => GetsTo s (.stopping i)) (getsTo_start s)
  intro k hk h
  exact (h.turn (.stop hk) (by simp) (by simp)).turn (.advanceStop hk) (by simp) (by simp)

theorem dangles_stopped (h : Reachable step free (start s) t) (hplace : t.place = .stopped w)
    (hout : w ∉ Walked.workers.elements t.use.pool) : Dangles s := by
  refine ⟨{ t with place := .dangling }, reachable_proceed h ?_, rfl⟩
  unfold proceed through
  rw [hplace]
  dsimp only
  rw [if_neg hout]

theorem dangles_joining (h : Reachable step free (start s) t) (hplace : t.place = .joining c w)
    (hout : w ∉ c.elements t.use.pool) (hended : t.use.threads.find w = some .ended) :
    Dangles s := by
  have hjoined := proceed_joining hplace (by rw [hended]; rfl)
  refine ⟨{ t with place := .dangling }, reachable_proceed (reachable_proceed h hjoined) ?_, rfl⟩
  unfold proceed
  dsimp only
  rw [if_neg hout]

theorem step_workerExited (hj : t.use.joining = .out)
    (hrun : t.use.threads.find w = some .running) :
    step t (.workerExited w) = some { t with use := { t.use with
      pool := t.use.pool.workerExited w
      threads := t.use.threads.modify w fun _ => .left } } := by
  simp [step, Act.op, PoolUse.step, hj, hrun]

section Running

variable (hs : Sound s)
include hs

theorem dangles_of_current (hw : w ∈ Walked.workers.elements s.pool)
    (hrun : s.threads.find w = some .running) : Dangles s := by
  have hstopped : GetsTo s (.stopped w) :=
    ((getsTo_stopping s).1 w hw).turn (.stop hw) (by simp) (by simp)
  obtain ⟨t, hreach, hu, hpool, hplace⟩ := hstopped
  have hthread : t.use.threads.find w = some .running := by
    refine (hu.there .workers w hw ?_).trans hrun
    rw [hplace]
    exact not_false
  have hexit := step_workerExited hu.joining hthread
  apply dangles_stopped (hreach.next trivial hexit) hplace
  dsimp only
  rw [mem_workers_elements, hpool, (workerExited_exited hs.agree w).workers]
  simp

theorem dangles_of_exiting (h : GetsTo s (.walking .exiting (some w)))
    (hw : w ∈ Walked.exiting.elements s.pool)
    (hrun : s.threads.find w = some .running) : Dangles s := by
  have hd := disjoint_of_sound hs
  obtain ⟨t, hreach, hu, hpool, hplace⟩ := h.turn (.join hw) (by simp) (by simp)
  have hthread : t.use.threads.find w = some .running := by
    refine (hu.there .exiting w hw ?_).trans hrun
    rw [hplace]
    exact (not_gone hd hw).2.1
  have hexit := step_workerExited hu.joining hthread
  have hout : w ∉ Walked.exiting.elements (t.use.pool.workerExited w) := by
    rw [mem_exiting_elements, hpool, (workerExited_exited hs.agree w).exiting,
      if_neg (mt mem_workers_elements.mpr (hd w hw))]
    simp
  have hleft := SortedMap.find_modify_self hthread fun _ => .left
  generalize t.use.pool.workerExited w = pool at hexit hout
  generalize (t.use.threads.modify w fun _ => .left) = threads at hexit hleft
  have hend : step { t with use := { t.use with pool, threads } } (.threadEnds w) =
      some { t with use := { t.use with pool, threads := threads.modify w fun _ => .ended } } := by
    simp [step, Act.op, PoolUse.step, hleft]
  exact dangles_joining ((hreach.next trivial hexit).next trivial hend) hplace hout
    (SortedMap.find_modify_self hleft fun _ => .ended)

theorem dangles_of_running (hrun : s.threads.find w = some .running) : Dangles s := by
  have hd := disjoint_of_sound hs
  by_cases hcurrent : ∃ k ∈ Walked.workers.elements s.pool, s.threads.find k = some .running
  · obtain ⟨k, hk, hrunning⟩ := hcurrent
    exact dangles_of_current hs hk hrunning
  · push Not at hcurrent
    have hwalked : GetsTo s (.walking .workers none) := by
      have hfirst := (getsTo_stopping s).2.turn .stoppedAll (by simp) (by simp)
      refine (SortedMap.iterate (P := fun i => GetsTo s (.walking .workers i)) hfirst
        fun k hk h => ?_).2
      exact h.round hd hk ((status_of_mem_elements hs hk).2.resolve_right (hcurrent k hk))
    have hexiting : w ∈ Walked.exiting.elements s.pool := by
      by_contra hnot
      have hfits := hs.fits w
      unfold FitsAt at hfits
      rw [hrun] at hfits
      by_cases hw : w ∈ Walked.workers.elements s.pool
      · exact hcurrent w hw hrun
      · exact hnot (hfits.1.mp (mt mem_workers_elements.mpr hw))
    -- up to the first running one the exiting workers are deleted
    have hall : ∀ k ∈ Walked.exiting.elements s.pool, Dangles s ∨
        GetsTo s (.walking .exiting (some k)) := by
      have hfirst := hwalked.turn .walkedWorkers (by simp) (by simp)
      refine (SortedMap.iterate (P := fun i => Dangles s ∨ GetsTo s (.walking .exiting i))
        (.inr hfirst) ?_).1
      rintro k hk (h | h)
      · exact .inl h
      · rcases (status_of_mem_elements hs hk).2 with hfresh | hrunning
        · exact .inr (h.round hd hk hfresh)
        · exact .inl (dangles_of_exiting hs h hk hrunning)
    rcases hall w hexiting with h | h
    · exact h
    · exact dangles_of_exiting hs h hexiting hrun

end Running

/-- The destructor frees the workers of a reachable pool exactly if no thread is running when it is
called: each has called `worker_exited`, or has never been started. -/
theorem pool_frees_iff (h : Reachable PoolUse.step free PoolUse.init s) :
    Frees s ↔ ∀ w, s.threads.find w ≠ some .running := by
  have hs := sound_reachable h
  constructor
  · intro hfrees w hrun
    obtain ⟨t, hreach, hplace⟩ := dangles_of_running hs hrun
    exact hfrees.iterators t hreach hplace
  · intro hnone
    exact frees_of_apart (apart_of_sound hs hnone)

/-- One worker has exited, and another was never started. -/
def calm : List Op :=
  [.sendToWorker (text "search") 1, .workerExited 1, .addWorker 2 (text "search")]

theorem pool_frees_calm :
    ∃ s, Reachable PoolUse.step free PoolUse.init s ∧ s.threads.toList = [(1, .left), (2, .fresh)] ∧
    Frees s := by
  have hrun : ∃ s, exec PoolUse.step free PoolUse.init calm = some s ∧
      s.threads.toList = [(1, .left), (2, .fresh)] :=
    ⟨_, rfl, rfl⟩
  obtain ⟨s, hexec, hthreads⟩ := hrun
  refine ⟨s, reachable_of_exec hexec, hthreads, (pool_frees_iff (reachable_of_exec hexec)).mpr
    fun w hw => ?_⟩
  have hmem := SortedMap.mem_toList_iff.mpr hw
  simp [hthreads] at hmem

/-- One worker is running. It exits after its `stop`, and the iterator is advanced over it. -/
theorem running_dangles :
    ∃ s t, exec PoolUse.step free PoolUse.init [.sendToWorker (text "search") 1] = some s ∧
    exec step free (start s) [.proceed, .workerExited 1, .proceed] = some t ∧ t.place = .dangling ∧
      ¬ Frees s := by
  have hrun : ∃ s t, exec PoolUse.step free PoolUse.init [.sendToWorker (text "search") 1] =
    some s ∧
      exec step free (start s) [.proceed, .workerExited 1, .proceed] = some t ∧
          t.place = .dangling :=
    ⟨_, _, rfl, rfl, rfl⟩
  obtain ⟨s, t, hs, ht, hplace⟩ := hrun
  exact ⟨s, t, hs, ht, hplace, fun h => h.iterators t (reachable_of_exec ht) hplace⟩

end Xaprun.Destructor
