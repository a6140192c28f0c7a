import Xaprun.Proofs.UpdateOrder
import Xaprun.Spec.Settings

/-! The limits on the numbers of workers. Nothing in `send_to_worker` looks at them or at the
number of workers there are: they hold as long as the requests happen not to need more. Until the
shutdown no worker leaves, so that in a run whose calls of `get_worker` are told the truth there
is one worker for each group that has had a request. -/

namespace Xaprun

open Frames Runs

/-- A worker is of one group. -/
theorem getWorker_injective {g g' : Bytes} {worker : Worker} (h : getWorker g = some worker)
    (h' : getWorker g' = some worker) : g = g' := by
  have hindexer : ∀ {name : Bytes}, startswith name (text "indexer") = true →
      name = text "indexer" ++ name.drop 7 := by
    intro name hname
    obtain ⟨rest, rfl⟩ := List.isPrefixOf_iff_prefix.mp hname
    rfl
  unfold getWorker at h h'
  split_ifs at h with hsearch hpre
  · split_ifs at h' with hsearch' hpre'
    · rw [hsearch, hsearch']
    · cases h
      cases h'
  · split_ifs at h' with hsearch' hpre'
    · cases h
      cases h'
    · have hdrop : g.drop 7 = g'.drop 7 := Worker.indexer.inj (Option.some.inj (h.trans h'.symm))
      rw [hindexer hpre, hindexer hpre', hdrop]

namespace WorkerPool

variable {p q : WorkerPool} {v w fresh : Ptr} {g : Bytes} {d d' : WorkerDetails}

def member (groups : Bytes → Bool) (i : WorkerDetails) : ℕ := if groups i.group then 1 else 0

theorem total_modify_member {f : WorkerDetails → WorkerDetails} (m : SortedMap Ptr WorkerDetails)
    (groups : Bytes → Bool) (hf : ∀ i, (f i).group = i.group) :
    (m.modify w f).total (member groups) = m.total (member groups) := by
  by_cases hw : w ∈ m
  · obtain ⟨d, hd⟩ := SortedMap.mem_iff_exists.mp hw
    have hsame : member groups (f d) = member groups d := by rw [member, member, hf d]
    rw [SortedMap.total_modify _ hd, hsame, ← SortedMap.total_erase _ hd]
  · rw [SortedMap.modify_of_not_mem hw]

/-- A message goes to an idle worker, or the group has one more worker. -/
theorem currentWorkers_sendToWorker {new : Bool} (h : p.sendToWorker g fresh = .ok (w, new, q))
    (hfresh : fresh ∉ p.workers) :
    (p.searchWorker g = .ok (some w) ∧ ∀ groups, q.currentWorkers groups =
      p.currentWorkers groups) ∨
    (p.searchWorker g = .ok none ∧
      ∀ groups, q.currentWorkers groups = p.currentWorkers groups + if groups g then 1 else 0) := by
  unfold sendToWorker at h
  cases hs : p.searchWorker g with
  | error a => simp [hs] at h
  | ok o =>
    rw [hs] at h
    cases o with
    | some j =>
      obtain ⟨rfl, rfl, rfl⟩ : j = w ∧ false = new ∧ p.countMessage j = q := by simpa using h
      exact .inl ⟨rfl, fun groups => total_modify_member _ groups fun _ => rfl⟩
    | none =>
      obtain ⟨rfl, rfl, rfl⟩ : fresh = w ∧ true = new ∧
          (p.addWorker fresh g).countMessage fresh = q := by
        simpa using h
      refine .inr ⟨rfl, fun groups => ?_⟩
      calc ((p.workers.insert fresh (.new g)).modify fresh .count).total (member groups)
        _ = (p.workers.insert fresh (.new g)).total (member groups) :=
          total_modify_member _ groups fun _ => rfl
        _ = member groups (.new g) + p.workers.total (member groups) :=
          SortedMap.total_insert _ (SortedMap.not_mem_iff.mp hfresh) _
        _ = p.workers.total (member groups) + if groups g then 1 else 0 := Nat.add_comm _ _

/-- Every other step of the workers leaves at most the workers there are. -/
theorem currentWorkers_poolMoves {b : Workers.Act} (h : Workers.PoolMoves p b q) (hagree : Agree p)
    (hb : b.sent? = none) (groups : Bytes → Bool) :
    q.currentWorkers groups ≤ p.currentWorkers groups := by
  cases h with
  | same | joined | reaped => exact le_rfl
  | sent => cases hb
  | @exitRequested v =>
    have hle := SortedMap.total_erase_le (member groups) p.workers v
    rw [← (moveToExiting_moved hagree v).workers] at hle
    exact hle
  | stopped hq =>
    have hzero : q.currentWorkers groups = 0 := by
      unfold currentWorkers
      rw [(stopped_of_stop hagree hq).workers]
      rfl
    rw [hzero]
    exact Nat.zero_le _
  | handled hq =>
    obtain ⟨d, -, -, rfl⟩ := workerMessageHandled_ok hq
    exact (total_modify_member (f := .handled true) p.workers groups fun _ => rfl).le
  | @exited v =>
    have hle := SortedMap.total_erase_le (member groups) p.workers v
    rw [← (workerExited_exited hagree v).workers] at hle
    exact hle

theorem currentWorkers_pos (hd : p.workers.find w = some d) (hg : d.group = g) :
    1 ≤ p.currentWorkers fun group => decide (group = g) := by
  have hle := SortedMap.le_total (member fun group => decide (group = g)) hd
  rw [member, if_pos (decide_eq_true hg)] at hle
  exact hle

/-- Two are counted twice. -/
theorem eq_of_currentWorkers_le (h : (p.currentWorkers fun group => decide (group = g)) ≤ 1)
    (hd : p.workers.find w = some d) (hg : d.group = g) (hd' : p.workers.find v = some d')
    (hg' : d'.group = g) :
    w = v := by
  by_contra hne
  have hrest : (p.workers.erase w).find v = some d' := by
    rw [SortedMap.find_erase, if_neg (Ne.symm hne), hd']
  have hle := SortedMap.le_total (member fun group => decide (group = g)) hrest
  have hall : (p.currentWorkers fun group => decide (group = g)) = _ :=
    SortedMap.total_erase (member fun group => decide (group = g)) hd
  rw [member, if_pos (decide_eq_true hg)] at hall
  rw [member, if_pos (decide_eq_true hg')] at hle
  omega

end WorkerPool

namespace Workers

open WorkerPool

variable {s s' : Workers} {a : Act}

/-- While the workers serve, none of them leaves. -/
theorem InService.currentWorkers (hi : InService s) (hok : Serving s a)
    (h : Workers.step s a = some s') (hsent : a.sent? = none) (groups : Bytes → Bool) :
    s'.pool.currentWorkers groups = s.pool.currentWorkers groups := by
  have hmoves := poolMoves_of_step h
  generalize s'.pool = q at hmoves
  cases hmoves with
  | same => rfl
  | sent => cases hsent
  | exitRequested | stopped | joined | reaped => exact absurd hok (by simp [Serving])
  | handled hq =>
    obtain ⟨d, -, -, rfl⟩ := workerMessageHandled_ok hq
    exact total_modify_member (f := .handled true) s.pool.workers groups fun _ => rfl
  | exited =>
    obtain ⟨t, ht, -, h⟩ := step_running h
    obtain ⟨⟨msg, hpc⟩, -, -⟩ := workerExited_some h
    have hloop := (hi.looping _ t ht).inLoop
    rw [hpc] at hloop
    cases hloop

end Workers

namespace Server

open WorkerPool

variable {write : Writer} {capacity : ℕ} {s s' : Server} {a : Act} {es : List Event}
  {settings : ServerSettings}

/-! What a step does to the numbers of workers. -/

/-- A step passes a message for the group to `send_to_worker`. -/
structure Sends (s s' : Server) (a : Act) (g : Bytes) : Prop where
  groups : groups (s.emit a) = [g]
  serving : serving s.main = true
  after : Server.serving s'.main = true
  call : s.getWorkerCall a = if s.workers.pool.searchWorker g = .ok none then some (g, 0) else none
  pool : (∃ w, s.workers.pool.searchWorker g = .ok (some w) ∧
      ∀ P, s'.workers.pool.currentWorkers P = s.workers.pool.currentWorkers P) ∨
    (s.workers.pool.searchWorker g = .ok none ∧
      ∀ P, s'.workers.pool.currentWorkers P =
        s.workers.pool.currentWorkers P + if P g then 1 else 0)

/-- A step passes no message to `send_to_worker`. -/
structure Unsent (s s' : Server) (a : Act) : Prop where
  groups : groups (s.emit a) = []
  call : s.getWorkerCall a = none
  le : ∀ P, s'.workers.pool.currentWorkers P ≤ s.workers.pool.currentWorkers P
  eq : Server.serving s'.main = true → Server.serving s.main = true ∧
    ∀ P, s'.workers.pool.currentWorkers P = s.workers.pool.currentWorkers P

theorem groups_eq_nil (h : es.filterMap Event.routed? = []) : groups es = [] := by
  refine List.filterMap_eq_nil_iff.mpr fun e he => ?_
  have hnone := List.filterMap_eq_nil_iff.mp h e he
  cases e with
  | routed => cases hnone
  | handled | pushed | dispatched | wrote | eof => rfl

/-- `get_worker` is called for a message only. -/
theorem getWorkerCall_eq_none (h : groups (s.emit a) = []) : s.getWorkerCall a = none := by
  unfold getWorkerCall
  split
  · split
    · rename_i g msg effects pass hm
      simp only [emit, hm] at h
      cases h
    · rfl
  · rfl

theorem sends_of_execute {g : Bytes} {msg : Message} {fresh : Ptr} {effects : List Effect}
    {pass : Pass}
    (h : Moves write capacity s (.execute fresh) s')
    (hmain : s.main = .dispatching (.sendToWorker g msg :: effects) pass)
    (hu : PoolUse.Sound (Workers.toUse s.workers)) : Sends s s' (.execute fresh) g := by
  have hcall : s.getWorkerCall (.execute fresh) =
      if s.workers.pool.searchWorker g = .ok none then some (g, 0) else none := by
    simp only [getWorkerCall, hmain]
    split
    · rename_i hnone
      rw [if_pos hnone]
    · rename_i hother
      rw [if_neg hother]
  have hgroups : groups (s.emit (.execute fresh)) = [g] := by
    simp only [emit, hmain]
    rfl
  cases h with
  | answer hm => cases hmain.symm.trans hm
  | @handOver _ _ _ _ _ workers hm hw =>
    cases hmain.symm.trans hm
    refine ⟨hgroups, by rw [hmain]; rfl, rfl, hcall, ?_⟩
    have hpool : ∃ w new, s.workers.pool.sendToWorker g fresh = .ok (w, new, workers.pool) ∧
        fresh ∉ s.workers.threads := by
      obtain ⟨-, hf, ⟨w, pool, hp, rfl⟩ | ⟨pool, worker, hp, -, rfl⟩⟩ :=
        Workers.sendToWorker_some hw
      · exact ⟨w, false, hp, hf⟩
      · exact ⟨fresh, true, hp, hf⟩
    obtain ⟨w, new, hp, hf⟩ := hpool
    have hnew : fresh ∉ s.workers.pool.workers := (hu.fresh (by simpa [Workers.toUse] using hf)).1
    rcases currentWorkers_sendToWorker hp hnew with ⟨hidle, heq⟩ | ⟨hnone, hadd⟩
    · exact .inl ⟨w, hidle, heq⟩
    · exact .inr ⟨hnone, hadd⟩

theorem sends_or_unsent (h : Moves write capacity s a s') (hi : Sane capacity s)
    (hu : PoolUse.Sound (Workers.toUse s.workers)) : Unsent s s' a ∨ ∃ g, Sends s s' a g := by
  rcases workers_emit h hi with ⟨hw, hr, -, hm⟩ | ⟨b, hb, hr, -, hm⟩
  · have hnil := groups_eq_nil hr
    refine .inl ⟨hnil, getWorkerCall_eq_none hnil, fun P => ?_, fun hs => ⟨hm hs, fun P => ?_⟩⟩
    · rw [hw]
    · rw [hw]
  · cases hsent : b.sent? with
    | none =>
      have hnil := groups_eq_nil (hr.trans (by rw [hsent]; rfl))
      refine .inl ⟨hnil, getWorkerCall_eq_none hnil, fun P => ?_,
        fun hs => ⟨(hm hs).2, fun P => ?_⟩⟩
      · exact currentWorkers_poolMoves (Workers.poolMoves_of_step hb) hu.agree hsent P
      · exact (hi.engaged (hm hs).2).workers.currentWorkers (hm hs).1 hb hsent P
    | some msg =>
      have hmem : msg ∈ (s.emit a).filterMap Event.routed? := by
        rw [hr, hsent]
        exact List.mem_singleton_self _
      obtain ⟨fresh, g, effects, pass, rfl, hmain⟩ := routed_emit hmem
      exact .inr ⟨g, sends_of_execute h hmain hu⟩

/-! One worker for each group. -/

/-- Until the shutdown there is one worker for each group that has had a request. -/
def OnePerGroup (p : List Event × Server) : Prop :=
  serving p.2.main = true → ∀ P : Bytes → Bool,
    p.2.workers.pool.currentWorkers P = ((groups p.1).toFinset.filter fun g => P g = true).card

theorem groups_append (es es' : List Event) : groups (es ++ es') = groups es ++ groups es' :=
  List.filterMap_append

/-- The groups that have had a request are those with a worker. -/
theorem mem_groups_iff {g : Bytes}
    (h : s.workers.pool.currentWorkers (fun group => decide (group = g)) =
      ((groups es).toFinset.filter fun group => decide (group = g) = true).card) :
    g ∈ groups es ↔ s.workers.pool.currentWorkers (fun group => decide (group = g)) ≠ 0 := by
  rw [h, ← Nat.pos_iff_ne_zero, Finset.card_pos]
  constructor
  · intro hmem
    exact ⟨g, Finset.mem_filter.mpr ⟨List.mem_toFinset.mpr hmem, decide_eq_true rfl⟩⟩
  · rintro ⟨g', hmem⟩
    obtain ⟨hin, heq⟩ := Finset.mem_filter.mp hmem
    exact of_decide_eq_true heq ▸ List.mem_toFinset.mp hin

theorem card_groups_append (P : Bytes → Bool) (es : List Event) {es' : List Event} {g : Bytes}
    (hone : groups es' = [g]) :
    ((groups (es ++ es')).toFinset.filter fun g => P g = true).card =
      ((groups es).toFinset.filter fun g => P g = true).card +
        if g ∉ groups es ∧ P g = true then 1 else 0 := by
  have hinsert : (groups (es ++ es')).toFinset = insert g (groups es).toFinset := by
    rw [groups_append, hone, List.toFinset_append, Finset.union_comm]
    rfl
  rw [hinsert, Finset.filter_insert]
  by_cases hP : P g = true
  · rw [if_pos hP]
    by_cases hmem : g ∈ groups es
    · have hin : g ∈ (groups es).toFinset.filter fun g => P g = true :=
        Finset.mem_filter.mpr ⟨List.mem_toFinset.mpr hmem, hP⟩
      rw [Finset.insert_eq_of_mem hin, if_neg fun h => h.1 hmem, add_zero]
    · have hout : g ∉ (groups es).toFinset.filter fun g => P g = true :=
        fun h => hmem (List.mem_toFinset.mp (Finset.mem_filter.mp h).1)
      rw [Finset.card_insert_of_notMem hout, if_pos ⟨hmem, hP⟩]
  · rw [if_neg hP, if_neg fun h => hP h.2, add_zero]

theorem currentWorkers_ne_zero {g : Bytes} {w : Ptr} (hagree : Agree s.workers.pool)
    (hidle : s.workers.pool.searchWorker g = .ok (some w)) :
    s.workers.pool.currentWorkers (fun group => decide (group = g)) ≠ 0 := by
  obtain ⟨d, hd, hg⟩ := (hagree w g).mpr (searchWorker_some hidle).1
  have := currentWorkers_pos hd hg
  omega

theorem OnePerGroup.step (h : OnePerGroup (es, s)) (hok : Told s a)
    (hs : s.step write capacity a = some s') (hi : Sane capacity s)
    (hu : PoolUse.Sound (Workers.toUse s.workers)) :
    OnePerGroup (es ++ s.emit a, s') := by
  intro hserving P
  rcases sends_or_unsent (moves_of_step hs) hi hu with hun | ⟨g, hsends⟩
  · obtain ⟨hbefore, heq⟩ := hun.eq hserving
    simp only [groups_append, hun.groups, List.append_nil]
    rw [heq P]
    exact h hbefore P
  · have hbefore := h hsends.serving
    have hmem := mem_groups_iff (hbefore fun group => decide (group = g))
    have hcard := card_groups_append P es hsends.groups
    rcases hsends.pool with ⟨w, hidle, heq⟩ | ⟨hnone, hadd⟩
    · have hin : g ∈ groups es := hmem.mpr (currentWorkers_ne_zero hu.agree hidle)
      rw [if_neg fun h => h.1 hin, add_zero] at hcard
      rw [heq P, hcard]
      exact hbefore P
    · -- `get_worker` is told that there is no worker of the group
      have hzero : s.workers.pool.currentWorkers (fun group => decide (group = g)) = 0 := by
        have htold := hok (g, 0) (by rw [hsends.call, if_pos hnone]; rfl)
        exact Int.natCast_eq_zero.mp htold.symm
      have hout : g ∉ groups es := fun hin => hmem.mp hin hzero
      rw [hadd P, hcard, hbefore P]
      simp only [hout, not_false_eq_true, true_and]

/-! Keeping to the limits. -/

/-- The worker of the group is idle exactly if no thread made for the group has a request. -/
theorem unoccupied_iff {g : Bytes} (hin : s.workers.InService) (hagree : Agree s.workers.pool)
    (hone : (s.workers.pool.currentWorkers fun group => decide (group = g)) ≤ 1) :
    Unoccupied g s ↔ (s.workers.pool.searchWorker g = .ok none →
      (s.workers.pool.currentWorkers fun group => decide (group = g)) = 0) := by
  have hthread : ∀ i ∈ s.workers.threads.toList, getWorker g = some i.2.worker →
      ∃ d, s.workers.pool.workers.find i.1 = some d ∧ d.group = g ∧ Workers.Counts d i.2 := by
    intro i hi hmade
    obtain ⟨d, hd, hc⟩ := hin.counts (SortedMap.mem_toList_iff.mp hi)
    exact ⟨d, hd, getWorker_injective hc.made hmade, hc⟩
  constructor
  · intro hfree hnone
    by_contra hne
    obtain ⟨w, d, hd, hcounted⟩ := SortedMap.exists_of_total_ne_zero _ hne
    have hg : d.group = g := by simpa [member] using hcounted
    obtain ⟨t, ht, hc⟩ := Workers.accounted_of_reachable hin.reachable w d hd
    obtain ⟨hmessages, hout⟩ := hfree (w, t) (SortedMap.mem_toList_iff.mpr ht) (hg ▸ hc.made)
    have hzero : d.messages = 0 := by rw [hc.messages, hmessages, hout]; rfl
    exact searchWorker_none hnone ((hagree w g).mp ⟨d, hd, hg⟩) hd hzero
  · intro hnone i hi hmade
    obtain ⟨d, hd, hg, hc⟩ := hthread i hi hmade
    obtain ⟨o, ho⟩ := searchWorker_total hagree g
    cases o with
    | none =>
      have := currentWorkers_pos hd hg
      have := hnone ho
      omega
    | some w =>
      -- there is no other worker of the group
      obtain ⟨hgroup, dw, hdw, hzero⟩ := searchWorker_some ho
      obtain ⟨dw', hdw', hgw⟩ := (hagree w g).mpr hgroup
      obtain rfl := Option.some.inj (hdw.symm.trans hdw')
      obtain rfl := eq_of_currentWorkers_le hone hd hg hdw hgw
      obtain rfl := Option.some.inj (hd.symm.trans hdw)
      have hmessages := hc.messages
      rw [hzero] at hmessages
      exact ⟨List.length_eq_zero_iff.mp (by omega), by omega⟩

theorem onePerGroup_of_logged {useStdio : Bool}
    (h : Logged (step write capacity) Told emit (init useStdio) es s) :
    OnePerGroup (es, s) :=
  h.invariant (fun es s => OnePerGroup (es, s)) (fun _ _ => rfl) fun _ _ _ _ hr hok hs hi =>
    hi.step hok hs (sane_of_reachable hr) (Workers.sound_of_reachable (workers_reachable hr))

theorem OnePerGroup.atMostOne (h : OnePerGroup (es, s)) (hserving : serving s.main = true)
    (g : Bytes) :
    (s.workers.pool.currentWorkers fun group => decide (group = g)) ≤ 1 := by
  rw [h hserving]
  refine Finset.card_le_one.mpr fun x hx y hy => ?_
  have hx := of_decide_eq_true (Finset.mem_filter.mp hx).2
  have hy := of_decide_eq_true (Finset.mem_filter.mp hy).2
  rw [hx, hy]

/-- Where there is one worker for each group, the limits are on the groups. -/
theorem OnePerGroup.withinLimits_iff (h : OnePerGroup (es, s)) (hserving : serving s.main = true)
    (hv : settings.validate.1 = true) :
    WithinLimits settings s ↔ ((updated es).card : ℤ) ≤ settings.updateWorkers := by
  have hupdate : s.workers.pool.currentWorkers indexerGroup = (updated es).card :=
    h hserving indexerGroup
  have hsearch : s.workers.pool.currentWorkers searchGroup ≤ 1 :=
    h.atMostOne hserving (text "search")
  rw [← hupdate]
  constructor
  · exact WithinLimits.update
  · intro hle
    refine ⟨le_trans ?_ (settings.validate_iff.mp hv).1, hle⟩
    exact_mod_cast hsearch

theorem withinLimits_step (hv : settings.validate.1 = true) (hm : OnePerGroup (es, s))
    (hi : Sane capacity s) (hu : PoolUse.Sound (Workers.toUse s.workers))
    (hs : s.step write capacity a = some s') (hw : WithinLimits settings s) :
    Told s a ∧ WithinLimits settings s' ↔ Moderate settings (es, s) a := by
  rcases sends_or_unsent (moves_of_step hs) hi hu with hun | ⟨g, hsends⟩
  · have hsearch := hun.le searchGroup
    have hupdate := hun.le indexerGroup
    refine iff_of_true ⟨?_, ?_, ?_⟩ ?_
    · simp [Told, hun.call]
    · exact le_trans (by exact_mod_cast hsearch) hw.search
    · exact le_trans (by exact_mod_cast hupdate) hw.update
    · simp [Moderate, hun.groups]
  · have hone := hm.atMostOne hsends.serving g
    have htold : Told s a ↔ Unoccupied g s := by
      rw [unoccupied_iff (hi.engaged hsends.serving).workers hu.agree hone, Told, hsends.call]
      by_cases hnone : s.workers.pool.searchWorker g = .ok none
      · rw [if_pos hnone]
        simp only [Option.mem_some_iff, forall_eq', hnone, forall_const]
        exact eq_comm.trans Int.natCast_eq_zero
      · simp [hnone]
    have hmoderate : Moderate settings (es, s) a ↔
        Unoccupied g s ∧ ((updated (es ++ s.emit a)).card : ℤ) ≤ settings.updateWorkers := by
      simp only [Moderate, hsends.groups, List.mem_singleton, forall_eq]
    rw [hmoderate, ← htold]
    apply and_congr_right
    intro hok
    exact (hm.step hok hs hi hu).withinLimits_iff hsends.after hv

/-- In a run of the server under valid settings, `get_worker` is always told the number of workers
and the limits hold in every state, exactly when every request is routed after the earlier ones
for its group have been handled and no more databases are updated than there may be update
workers. -/
theorem limits_hold_iff (settings : ServerSettings) (hv : settings.validate.1 = true)
    {as : List Act} {p : List Event × Server}
    (h : Run (recorded (step write capacity) emit) free ([], init settings.useStdio) as p) :
    (Run (recorded (step write capacity) emit) (fun p => Told p.2)
        ([], init settings.useStdio) as p ∧
      ∀ bs q, bs <+: as →
        Run (recorded (step write capacity) emit) free ([], init settings.useStdio) bs q →
        WithinLimits settings q.2) ↔
      Run (recorded (step write capacity) emit) (Moderate settings)
        ([], init settings.useStdio) as p := by
  obtain ⟨hsearch, hupdate⟩ := settings.validate_iff.mp hv
  refine h.guard_iff ⟨?_, ?_⟩ fun p a p' hr hs hw => ?_
  · exact le_trans (by decide : (0 : ℤ) ≤ 1) hsearch
  · exact le_trans (by decide : (0 : ℤ) ≤ 1) hupdate
  · obtain ⟨s', hs', rfl⟩ := Option.map_eq_some_iff.mp hs
    have hlog := hr.logged
    exact withinLimits_step hv (onePerGroup_of_logged hlog) (sane_of_reachable hlog.reachable)
      (Workers.sound_of_reachable (workers_reachable hlog.reachable)) hs' hw

def onStdio : ServerSettings := { ServerSettings.default with useStdio := true }

/-- A search and an update at once. -/
def searchAndUpdate : List Act :=
  [.loop, .select [0] [], .connRead (some (text "9 0 Gdb/a x11 1 Udb/a/1 y")), .execute 1,
    .execute 2]

theorem limits_hold_iff_searchAndUpdate :
    ∃ p, Run (recorded (step fastWriter 4) emit) free ([], init true) searchAndUpdate p ∧
      p.2.workers.pool.currentWorkers searchGroup = 1 ∧
      p.2.workers.pool.currentWorkers indexerGroup = 1 ∧
      ∀ bs q, bs <+: searchAndUpdate →
        Run (recorded (step fastWriter 4) emit) free ([], init true) bs q →
        WithinLimits onStdio q.2 := by
  have hrun : ∃ p, exec (recorded (step fastWriter 4) emit) (Moderate onStdio)
        ([], init true) searchAndUpdate = some p ∧
      p.2.workers.pool.currentWorkers searchGroup = 1 ∧
      p.2.workers.pool.currentWorkers indexerGroup = 1 :=
    exists_of_exec (by decide +kernel)
  obtain ⟨p, hexec, hsearch, hupdate⟩ := hrun
  have hmoderate := run_of_exec hexec
  have hfree : Run (recorded (step fastWriter 4) emit) free ([], init true) searchAndUpdate p :=
    hmoderate.mono fun _ _ _ => trivial
  exact ⟨p, hfree, hsearch, hupdate, ((limits_hold_iff onStdio (by decide) hfree).mpr hmoderate).2⟩

/-- Two updates at once: two update workers where one is allowed, the second made when
`get_worker` is told that there are none. -/
theorem limits_exceeded :
    ¬ ∀ settings : ServerSettings, settings.validate.1 = true →
      ∀ as s, Run (step fastWriter 4) free (init settings.useStdio) as s →
        WithinLimits settings s ∧ ∀ a, step fastWriter 4 s a ≠ none → Told s a := by
  intro h
  have hrun : ∃ s, exec (step fastWriter 4) free (init true)
      [.loop, .select [0] [], .connRead (some (text "11 0 Udb/a/1 A11 1 Udb/a/1 B")), .execute 1,
        .execute 2] =
        some s ∧ s.workers.pool.currentWorkers indexerGroup = 2 :=
    exists_of_exec (by decide +kernel)
  obtain ⟨s, hexec, htwo⟩ := hrun
  have hle := (h onStdio (by decide) _ s (run_of_exec hexec)).1.update
  rw [htwo] at hle
  exact absurd hle (by decide)

end Server

end Xaprun
