import Xaprun.Proofs.Blocking
import Xaprun.Sanity.Connections

/-! The order of the updates of one database. A message goes to a worker that has nothing to
do, so two messages of a kind that are with the workers at once are with two workers, and these
may answer in either order. If there is never more than one, the messages are answered in the
order in which they were routed. -/

namespace Xaprun

open Frames Runs

namespace Workers

variable {s s' : Workers} {a : Act} {w : Ptr} {t : WorkerThread} {p : Message → Bool}

/-- The messages of a kind, as a measure. -/
def kind (p : Message → Bool) (msg : Message) : Multiset Message := if p msg then {msg} else 0

theorem load_kind (t : WorkerThread) :
    load (kind p) t = ((t.unanswered.filter p : List Message) : Multiset Message) := by
  have hsum : ∀ ms : List Message, (ms.map (kind p)).sum =
      ((ms.filter p : List Message) : Multiset Message) := by
    intro ms
    induction ms with
    | nil => rfl
    | cons msg ms ih =>
      rw [List.map_cons, List.sum_cons, ih]
      cases hp : p msg with
      | true => simp [kind, hp]
      | false => simp [kind, hp]
  unfold load WorkerThread.unanswered
  rw [hsum, List.filter_append, ← Multiset.coe_add]
  congr 1
  cases t.pc with
  | handling msg =>
    cases hp : p msg with
    | true => simp [kind, hp]
    | false => simp [kind, hp]
  | entering | waiting | nudging | leaving | left | ended => rfl

theorem total_kind_eq_zero (h : ∀ i ∈ s.threads.toList, ∀ m ∈ i.2.unanswered, p m = false) :
    s.threads.total (load (kind p)) = 0 := by
  by_contra hne
  obtain ⟨w, t, ht, hload⟩ := SortedMap.exists_of_total_ne_zero _ hne
  apply hload
  rw [load_kind]
  have hnone : t.unanswered.filter p = [] :=
    List.filter_eq_nil_iff.mpr fun m hm => by simp [h (w, t) (SortedMap.mem_toList_iff.mpr ht) m hm]
  rw [hnone]
  rfl

theorem answered?_respond (s : Workers) (w : Ptr) :
    s.answered? (.respond w) = ((s.running w).bind WorkerThread.answer).map Prod.fst := by
  simp only [answered?]
  cases s.running w with
  | none => rfl
  | some t =>
    simp only [Option.bind_some, WorkerThread.answer]
    cases t.pc with
    | handling msg =>
      simp only [run_eq, echo]
      by_cases hc : 0 ≤ msg.connectionNum
      · simp [hc, not_lt.mpr hc]
      · simp [hc, not_le.mp hc]
    | entering | waiting | nudging | leaving | left | ended => rfl

end Workers

namespace Server

variable {write : Writer} {capacity : ℕ} {s s' : Server} {a : Act} {es : List Event}
  {p : Message → Bool}

theorem requests_connRead (s : Server) (data : Option Bytes) :
    (s.emit (.connRead data)).filterMap Event.routed? = [] ∧
      (s.emit (.connRead data)).filterMap Event.handled? = [] := by
  match data with
  | none => exact ⟨rfl, rfl⟩
  | some [] =>
    simp only [emit]
    split <;> exact ⟨rfl, rfl⟩
  | some (b :: bs) => exact ⟨rfl, rfl⟩

theorem requests_connWrite (s : Server) (written : Option ℕ) :
    (s.emit (.connWrite written)).filterMap Event.routed? = [] ∧
      (s.emit (.connWrite written)).filterMap Event.handled? = [] := by
  match written with
  | none => exact ⟨rfl, rfl⟩
  | some n =>
    simp only [emit]
    split <;> exact ⟨rfl, rfl⟩

/-- What a step is for the workers: nothing, or one step of theirs that sends what is routed and
answers what is handled. -/
theorem workers_emit (h : Moves write capacity s a s') (hi : Sane capacity s) :
    (s'.workers = s.workers ∧ (s.emit a).filterMap Event.routed? = [] ∧
      (s.emit a).filterMap Event.handled? = [] ∧ (serving s'.main = true → serving s.main = true)) ∨
    ∃ b, s.workers.step b = some s'.workers ∧ (s.emit a).filterMap Event.routed? = b.sent?.toList ∧
      (s.emit a).filterMap Event.handled? = (s.workers.answered? b).toList ∧
      (serving s'.main = true → Workers.Serving s.workers b ∧ serving s.main = true) := by
  cases h with
  | @quiet b workers hq hw =>
    refine .inr ⟨b, hw, ?_, ?_, fun hm => ⟨serving_of_quiet hq, hm⟩⟩
    · cases b with
      | enter | receive | workerExited | ends => rfl
      | sendToWorker | requestExit | stop | join | joined | reap | respond | nudged =>
        simp [quiet] at hq
    · cases b with
      | enter | receive | workerExited | ends => rfl
      | sendToWorker | requestExit | stop | join | joined | reap | respond | nudged =>
        simp [quiet] at hq
  | @respond w workers hw =>
    refine .inr ⟨.respond w, hw, ?_, ?_, fun hm => ⟨trivial, hm⟩⟩
    · simp only [emit]
      split <;> rfl
    · rw [Workers.answered?_respond]
      simp only [emit]
      split
      · rename_i msg response heq
        rw [heq]
        rfl
      · rename_i heq
        rw [heq]
        rfl
  | nudged _ hw => exact .inr ⟨_, hw, rfl, rfl, fun hm => ⟨trivial, hm⟩⟩
  | @handOver fresh g msg effects pass workers hm hw =>
    have heng := hi.engaged (by rw [hm]; rfl)
    obtain ⟨c, hc, -, hmsg⟩ :=
      heng.effects (.sendToWorker g msg) (by rw [hm]; exact List.mem_cons_self)
    refine .inr ⟨.sendToWorker g msg fresh, hw, ?_, ?_, fun _ =>
      ⟨(hmsg.symm ▸ hc : 0 ≤ msg.connectionNum), by rw [hm]; rfl⟩⟩
    · simp only [emit, hm]
      rfl
    · simp only [emit, hm]
      rfl
  | stop _ hw | join _ hw => exact .inr ⟨_, hw, rfl, rfl, fun hm => by simp [serving] at hm⟩
  | joined hmain hw => exact .inr ⟨_, hw, rfl, rfl, fun hm => by simp [hmain, serving] at hm⟩
  | reap hmain hw hend =>
    refine .inr ⟨_, hw, rfl, rfl, fun hm => ?_⟩
    rcases hend with rfl | rfl <;> simp [serving] at hm
  | answer hm =>
    refine .inl ⟨rfl, ?_, ?_, fun _ => by rw [hm]; rfl⟩
    · simp only [emit, hm]
      rfl
    · simp only [emit, hm]
      rfl
  | dispatchResponses hm =>
    refine .inl ⟨rfl, ?_, ?_, fun _ => by rw [hm]; rfl⟩
    · exact List.filterMap_eq_nil_iff.mpr (List.forall_mem_map.mpr fun _ _ => rfl)
    · exact List.filterMap_eq_nil_iff.mpr (List.forall_mem_map.mpr fun _ _ => rfl)
  | connSkip hm | connRead hm =>
    exact .inl ⟨rfl, (requests_connRead s _).1, (requests_connRead s _).2, fun _ => by rw [hm]; rfl⟩
  | connWrite hm =>
    exact .inl ⟨rfl, (requests_connWrite s _).1, (requests_connWrite s _).2,
      fun _ => by rw [hm]; rfl⟩
  | shutdown => exact .inl ⟨rfl, rfl, rfl, id⟩
  | loop hm | leave hm | interrupted hm | selectNudge hm | selectConns hm | readNudge hm
  | readShutdown hm
  | endPass hm | writeNudge hm | endDispatch hm =>
    exact .inl ⟨rfl, rfl, rfl, fun _ => by rw [hm]; rfl⟩

theorem routed_emit {msg : Message} (h : msg ∈ (s.emit a).filterMap Event.routed?) :
    ∃ fresh group effects pass, a = .execute fresh ∧
      s.main = .dispatching (.sendToWorker group msg :: effects) pass := by
  obtain ⟨e, he, heq⟩ := List.mem_filterMap.mp h
  unfold emit at he
  split at he
  · split at he
    · rcases List.mem_cons.mp he with rfl | he
      · cases heq
      · obtain rfl := List.mem_singleton.mp he
        cases heq
    · cases he
  · rename_i fresh
    split at he
    · rename_i group msg' effects pass hm
      obtain rfl := List.mem_singleton.mp he
      obtain rfl : msg' = msg := Option.some.inj heq
      exact ⟨fresh, group, effects, pass, rfl, hm⟩
    · obtain rfl := List.mem_singleton.mp he
      cases heq
    · cases he
  · obtain ⟨r, -, rfl⟩ := List.mem_map.mp he
    cases heq
  · split at he
    · obtain rfl := List.mem_singleton.mp he
      cases heq
    · cases he
  · split at he
    · obtain rfl := List.mem_singleton.mp he
      cases heq
    · cases he
  · cases he

/-- Of the messages of the kind that have been routed, all but at most the last have been handled
in this order; the last one may be with a worker, and is while the workers serve. -/
def Ordered (p : Message → Bool) (es : List Event) (s : Server) : Prop :=
  ∃ rest : List Message, routed p es = handled p es ++ rest ∧ rest.length ≤ 1 ∧
    s.workers.threads.total (Workers.load (Workers.kind p)) ≤ (rest : Multiset Message) ∧
    (serving s.main = true → s.workers.threads.total
      (Workers.load (Workers.kind p)) = (rest : Multiset Message))

theorem filter_toList (o : Option Message) :
    ((o.toList.filter p : List Message) : Multiset Message) = o.elim 0 (Workers.kind p) := by
  cases o with
  | none => rfl
  | some msg => cases hp : p msg <;> simp [Workers.kind, hp]

theorem exists_of_filter_ne_nil {o : Option Message} (hp : o.toList.filter p ≠ []) :
    ∃ msg, o = some msg ∧ p msg = true := by
  cases o with
  | none => exact absurd rfl hp
  | some msg =>
    refine ⟨msg, rfl, ?_⟩
    by_contra hn
    exact hp (by simp [hn])

theorem eq_singleton_of_le {rest : List Message} {msg : Message} {m : Multiset Message}
    (hlen : rest.length ≤ 1)
    (hle : m + {msg} ≤ (rest : Multiset Message)) : rest = [msg] ∧ m = 0 := by
  have hcard := Multiset.card_le_card hle
  rw [Multiset.card_add, Multiset.card_singleton, Multiset.coe_card] at hcard
  have hm : m = 0 := Multiset.card_eq_zero.mp (by omega)
  rw [hm, zero_add, Multiset.singleton_le, Multiset.mem_coe] at hle
  obtain ⟨x, hx⟩ := List.length_eq_one_iff.mp (by omega : rest.length = 1)
  rw [hx, List.mem_singleton] at hle
  exact ⟨by rw [hx, hle], hm⟩

/-- A step of the workers that routes nothing of the kind. -/
theorem Ordered.unsent (h : Ordered p es s) {emitted : List Event} {d : Multiset Message}
    (hsent : (emitted.filterMap Event.routed?).filter p = []) {o : Option Message}
    (hans : emitted.filterMap Event.handled? = o.toList)
    (hload : s'.workers.threads.total (Workers.load (Workers.kind p)) + o.elim 0
      (Workers.kind p) + d =
      s.workers.threads.total (Workers.load (Workers.kind p)))
    (hserving : serving s'.main = true → serving s.main = true ∧ d = 0) :
    Ordered p (es ++ emitted) s' := by
  obtain ⟨rest, heq, hlen, hle, hrest⟩ := h
  have hrouted : routed p (es ++ emitted) = routed p es := by simp [routed, hsent]
  have hhandled : handled p (es ++ emitted) = handled p es ++ o.toList.filter p := by
    simp [handled, hans]
  rw [← filter_toList] at hload
  by_cases hnone : o.toList.filter p = []
  · rw [hnone, Multiset.coe_nil, add_zero] at hload
    refine ⟨rest, by rw [hrouted, hhandled, hnone, heq, List.append_nil], hlen, ?_, fun hm => ?_⟩
    · exact ((Multiset.le_add_right _ d).trans hload.le).trans hle
    · rw [(hserving hm).2, add_zero] at hload
      rw [hload]
      exact hrest (hserving hm).1
  · -- the one that is with a worker is handled
    obtain ⟨msg, rfl, hp⟩ := exists_of_filter_ne_nil hnone
    have hone : (some msg).toList.filter p = [msg] := by simp [hp]
    rw [hone, Multiset.coe_singleton] at hload
    have hle' : s'.workers.threads.total (Workers.load (Workers.kind p)) + {msg} ≤
        (rest : Multiset Message) :=
      ((Multiset.le_add_right _ d).trans hload.le).trans hle
    obtain ⟨rfl, hgone⟩ := eq_singleton_of_le hlen hle'
    refine ⟨[], by rw [hrouted, hhandled, hone, heq, List.append_nil], by simp, ?_, fun _ => hgone⟩
    rw [hgone]
    exact le_rfl

/-- A message of the kind is routed when none is with the workers. -/
theorem Ordered.sent (h : Ordered p es s) {emitted : List Event} {d : Multiset Message}
    {msg : Message}
    (hsent : (emitted.filterMap Event.routed?).filter p = [msg])
    (hans : emitted.filterMap Event.handled? = [])
    (hmain : serving s.main = true)
    (hfree : s.workers.threads.total (Workers.load (Workers.kind p)) = 0)
    (hload : s'.workers.threads.total (Workers.load (Workers.kind p)) + d = {msg})
    (hserving : serving s'.main = true → d = 0) : Ordered p (es ++ emitted) s' := by
  obtain ⟨rest, heq, -, -, hrest⟩ := h
  have hnil : rest = [] := by
    have := hrest hmain
    rw [hfree] at this
    exact (Multiset.coe_eq_zero rest).mp this.symm
  refine ⟨[msg], ?_, by simp, ?_, fun hm => ?_⟩
  · have hrouted : routed p (es ++ emitted) = routed p es ++ [msg] := by simp [routed, ← hsent]
    have hhandled : handled p (es ++ emitted) = handled p es := by simp [handled, hans]
    rw [hrouted, hhandled, heq, hnil, List.append_nil]
  · rw [Multiset.coe_singleton, ← hload]
    exact Multiset.le_add_right _ d
  · rw [hserving hm, add_zero] at hload
    rw [hload, Multiset.coe_singleton]

theorem Ordered.step (h : Ordered p es s) (hok : Serial p s a)
    (hs : s.step write capacity a = some s')
    (hsane : Sane capacity s) (hacc : s.workers.Accounted) : Ordered p (es ++ s.emit a) s' := by
  rcases workers_emit (moves_of_step hs) hsane with ⟨hw, hr, hh, hm⟩ | ⟨b, hb, hr, hh, hm⟩
  · refine h.unsent (d := 0) (by rw [hr]; rfl) (o := none) hh ?_ fun hm' => ⟨hm hm', rfl⟩
    rw [hw]
    simp
  · obtain ⟨-, -, d, hload, hd⟩ := Workers.balance_step (Workers.kind p) hb hacc
    have hzero : serving s'.main = true → d = 0 := fun hm' =>
      hd (hm hm').1 fun w t ht => ((hsane.engaged (hm hm').2).workers.looping w t ht).nonNeg
    rw [← filter_toList (o := b.sent?)] at hload
    by_cases hsent : b.sent?.toList.filter p = []
    · rw [hsent, Multiset.coe_nil, add_zero] at hload
      exact h.unsent (by rw [hr, hsent]) hh hload fun hm' => ⟨(hm hm').2, hzero hm'⟩
    · obtain ⟨msg, ho, hp⟩ := exists_of_filter_ne_nil hsent
      have hmem : msg ∈ (s.emit a).filterMap Event.routed? := by
        rw [hr, ho]
        exact List.mem_singleton_self _
      obtain ⟨fresh, group, effects, pass, rfl, hmain⟩ := routed_emit hmem
      have hguard : ∀ i ∈ s.workers.threads.toList, ∀ m ∈ i.2.unanswered, p m = false := by
        refine hok msg ?_ hp
        simp [routes, hmain]
      have hfree := Workers.total_kind_eq_zero hguard
      have hone : b.sent?.toList.filter p = [msg] := by rw [ho]; simp [hp]
      have hnone : s.workers.answered? b = none := by
        cases b with
        | respond => cases ho
        | sendToWorker | requestExit | stop | join | joined | reap | enter | receive | nudged
        | workerExited
        | ends => rfl
      rw [hone, hnone, hfree, Option.elim_none, add_zero, zero_add, Multiset.coe_singleton] at hload
      rw [hnone] at hh
      exact h.sent (by rw [hr, hone]) hh (by rw [hmain]; rfl) hfree hload hzero

/-- In every run in which no update of a database is routed while an earlier one from the same
connection is with a worker, the updates are handled in the order in which they were routed. -/
theorem updates_ordered {useStdio : Bool} (connectionNum : ℤ) (db : Bytes)
    (h : Logged (step write capacity) (Serial (Message.updates connectionNum db)) emit
      (init useStdio) es s) :
    handled (Message.updates connectionNum db) es <+:
      routed (Message.updates connectionNum db) es := by
  have hi : Ordered (Message.updates connectionNum db) es s := by
    refine h.invariant (Ordered (Message.updates connectionNum db)) ?_
      fun es s a s' hr hok hs hi => ?_
    · exact ⟨[], rfl, by simp, le_rfl, fun _ => rfl⟩
    · exact hi.step hok hs (sane_of_reachable hr)
        (Workers.accounted_of_reachable (workers_reachable hr))
  obtain ⟨rest, heq, -⟩ := hi
  exact ⟨rest, heq.symm⟩

/-- Two updates of one database in one read; each goes to a worker of its own. -/
def twoUpdates : List Act :=
  [.loop, .select [0] [], .connRead (some (text "11 0 Udb/a/1 A11 1 Udb/a/1 B")), .execute 1]

/-- The first is answered before the second is routed. -/
theorem updates_ordered_inTurn :
    ∃ es s, Logged (step fastWriter 4) (Serial (Message.updates 0 (text "a"))) emit
      (init true) es s ∧
      (routed (Message.updates 0 (text "a")) es).map Message.payload = [text "A", text "B"] ∧
      handled (Message.updates 0 (text "a")) es <+: routed (Message.updates 0 (text "a")) es := by
  have hrun : ∃ es s, trace (step fastWriter 4) (Serial (Message.updates 0 (text "a"))) emit
    (init true)
      (twoUpdates ++ [.thread (.enter 1), .thread (.receive 1), .thread (.respond 1), .execute 2]) =
        some (es, s) ∧
      (routed (Message.updates 0 (text "a")) es).map Message.payload = [text "A", text "B"] :=
    exists_of_trace (by decide +kernel)
  obtain ⟨es, s, htrace, hpayloads⟩ := hrun
  have hlog := logged_of_trace htrace
  exact ⟨es, s, hlog, hpayloads, updates_ordered 0 (text "a") hlog⟩

/-- The second worker is the faster one. -/
theorem updates_reordered :
    ¬ ∀ es s, Logged (step fastWriter 4) free emit (init true) es s →
      handled (Message.updates 0 (text "a")) es <+: routed (Message.updates 0 (text "a")) es := by
  intro h
  have hrun : ∃ es s, trace (step fastWriter 4) free emit (init true)
      (twoUpdates ++ [.execute 2, .thread (.enter 2), .thread (.receive 2), .thread (.respond 2),
        .thread (.enter 1), .thread (.receive 1), .thread (.respond 1)]) = some (es, s) ∧
      (routed (Message.updates 0 (text "a")) es).map Message.payload = [text "A", text "B"] ∧
      (handled (Message.updates 0 (text "a")) es).map Message.payload = [text "B", text "A"] :=
    exists_of_trace (by decide +kernel)
  obtain ⟨es, s, htrace, hrouted, hhandled⟩ := hrun
  have hprefix := (h es s (logged_of_trace htrace)).map Message.payload
  rw [hrouted, hhandled] at hprefix
  exact absurd hprefix (by decide)

end Server

end Xaprun
