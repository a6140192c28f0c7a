import Mathlib.Algebra.Order.Group.Multiset
import Xaprun.Proofs.Accounting

/-! No request is lost, duplicated or answered on the wrong connection by the workers. The
payloads passed to `send_to_worker` for a connection are those in the mailboxes, those a
worker has taken and not answered, and those answered. -/

namespace Xaprun.Workers

open Frames WorkerPool Runs

variable {s s' : Workers} {a : Act} {w : Ptr} {t t' : WorkerThread} {c : ℤ}

/-- Messages are sent for connection numbers that are not negative, and nobody is asked to stop. -/
def Serving (_ : Workers) : Act → Prop
  | .sendToWorker _ msg _ => 0 ≤ msg.connectionNum
  | .enter _ | .receive _ | .respond _ | .nudged _ | .workerExited _ | .ends _ => True
  | .requestExit _ | .stop | .join | .joined | .reap => False

instance (s : Workers) : (a : Act) → Decidable (Serving s a)
  | .sendToWorker _ msg _ => inferInstanceAs (Decidable (0 ≤ msg.connectionNum))
  | .enter _ | .receive _ | .respond _ | .nudged _ | .workerExited _ | .ends _ =>
    inferInstanceAs (Decidable True)
  | .requestExit _ | .stop | .join | .joined | .reap => inferInstanceAs (Decidable False)

def payloads (c : ℤ) (ms : List Message) : Multiset Bytes :=
  ((ms.filter (·.connectionNum = c)).map (·.payload) : List Bytes)

def responses (c : ℤ) (rs : List (ℤ × Bytes)) : Multiset Bytes :=
  ((rs.filter (·.1 = c)).map (·.2) : List Bytes)

def queued (c : ℤ) (t : WorkerThread) : Multiset Bytes := payloads c t.messages

def taken (c : ℤ) (t : WorkerThread) : Multiset Bytes :=
  match t.pc with
  | .handling msg => payloads c [msg]
  | _ => 0

def held (c : ℤ) (t : WorkerThread) : Multiset Bytes := queued c t + taken c t

def Conserved (c : ℤ) (s : Workers) : Prop :=
  payloads c s.sent = s.threads.total (held c) + responses c s.answered

structure NonNeg (t : WorkerThread) : Prop where
  messages : ∀ msg ∈ t.messages, 0 ≤ msg.connectionNum
  handling : ∀ msg, t.pc = .handling msg → 0 ≤ msg.connectionNum

theorem Evolves.nonNeg (h : Evolves a t t') (hok : Serving s a) (hn : NonNeg t) : NonNeg t' := by
  obtain ⟨hm, hh⟩ := hn
  cases h with
  | same => exact ⟨hm, hh⟩
  | sent =>
    refine ⟨fun msg hmem => ?_, hh⟩
    rcases List.mem_append.mp hmem with hmem | hmem
    · exact hm msg hmem
    · obtain rfl := List.mem_singleton.mp hmem
      exact hok
  | exitRequested | stopped | joined => exact absurd hok (by simp [Serving])
  | received hpc hst hmsg =>
    rw [hmsg] at hm
    refine ⟨fun msg hmem => hm msg (by simp [hmem]), fun msg hp => ?_⟩
    cases hp
    exact hm _ (by simp)
  | entered | interrupted | broke | responded | nudged | exited | ended =>
    exact ⟨hm, fun msg hp => by simp [WorkerThread.setPc] at hp⟩

def AllNonNeg (s : Workers) : Prop := ∀ w t, s.threads.find w = some t → NonNeg t

theorem allNonNeg_step (h : step s a = some s') (hok : Serving s a) (hi : AllNonNeg s) :
    AllNonNeg s' := by
  intro w t' ht'
  rcases step_evolved h ht' with ⟨t, ht, he⟩ | ⟨-, g, msg, worker, rfl, rfl⟩
  · exact he.nonNeg hok (hi w t ht)
  · refine ⟨fun m hm => ?_, fun m hm => by simp [WorkerThread.sendMessage, WorkerThread.start,
      WorkerThread.new] at hm⟩
    simp only [WorkerThread.sendMessage, WorkerThread.start, WorkerThread.new, List.nil_append,
      List.mem_singleton] at hm
    subst hm
    exact hok

/-! What the threads hold, in any measure of messages. -/

section Load

variable {M : Type*} [AddCommMonoid M] (g : Message → M)

def load (t : WorkerThread) : M :=
  (t.messages.map g).sum + match t.pc with
    | .handling msg => g msg
    | _ => 0

def Act.sent? : Act → Option Message
  | .sendToWorker _ msg _ => some msg
  | _ => none

def answered? (s : Workers) : Act → Option Message
  | .respond w => (s.running w).bind fun t =>
    match t.pc with
    | .handling msg => if 0 ≤ msg.connectionNum then some msg else none
    | _ => none
  | _ => none

theorem load_sendMessage (t : WorkerThread) (msg : Message) :
    load g (t.sendMessage msg) = load g t + g msg := by
  simp only [load, WorkerThread.sendMessage, List.map_append, List.sum_append, List.map_cons,
    List.map_nil,
    List.sum_cons, List.sum_nil, add_zero]
  rw [add_right_comm]

theorem load_new (worker : Worker) (msg : Message) :
    load g ((WorkerThread.new worker).start.sendMessage msg) = g msg := by
  rw [load_sendMessage]
  simp [load, WorkerThread.new, WorkerThread.start]

theorem load_of_eq (hm : t'.messages = t.messages) (hh : ∀ msg, t'.pc ≠ .handling msg)
    (ht : ∀ msg, t.pc ≠ .handling msg) : load g t' = load g t := by
  have hnone : ∀ u : WorkerThread, (∀ msg, u.pc ≠ .handling msg) →
      load g u = (u.messages.map g).sum := by
    intro u hu
    unfold load
    cases hpc : u.pc with
    | handling msg => exact absurd hpc (hu msg)
    | entering | waiting | nudging | leaving | left | ended => simp
  rw [hnone t' hh, hnone t ht, hm]

theorem load_receive {msg : Message} {rest : List Message} (hpc : t.pc = .waiting)
    (hm : t.messages = msg :: rest) :
    load g { t with messages := rest, pc := .handling msg } = load g t := by
  simp only [load, hpc, hm, List.map_cons, List.sum_cons, add_zero]
  rw [add_comm]

theorem load_respond {msg : Message} {pc : Pc} (ht : t.pc = .handling msg)
    (hpc : ∀ msg, pc ≠ .handling msg) :
    load g (t.setPc pc) + g msg = load g t := by
  have hdone : load g (t.setPc pc) = (t.messages.map g).sum := by
    unfold load WorkerThread.setPc
    cases pc with
    | handling msg => exact absurd rfl (hpc msg)
    | entering | waiting | nudging | leaving | left | ended => simp
  rw [hdone]
  simp [load, ht]

theorem load_stop (t : WorkerThread) : load g t.stop = load g t := by
  rcases stop_eq t with heq | heq <;> rw [heq]
  rfl

theorem load_join (t : WorkerThread) : load g t.join = load g t := by
  unfold WorkerThread.join
  split_ifs <;> rfl

theorem total_load_move {threads : SortedMap Ptr WorkerThread} {f : WorkerThread → WorkerThread}
    (hf : ∀ t, threads.find w = some t → load g (f t) = load g t) :
    (threads.modify w f).total (load g) = threads.total (load g) := by
  cases ht : threads.find w with
  | none =>
    congr 1
    ext1 v
    rw [SortedMap.find_modify]
    split_ifs with hv
    · rw [hv, ht]; rfl
    · rfl
  | some t =>
    have := SortedMap.total_modify_add (load g) (x := 0) (y := 0) ht (by rw [hf t ht])
    simpa using this

theorem total_load_stopAll (threads : SortedMap Ptr WorkerThread) (ws : List Ptr) :
    (stopAll threads ws).total (load g) = threads.total (load g) := by
  induction ws generalizing threads with
  | nil => rfl
  | cons v ws ih =>
    have hcons : stopAll threads (v :: ws) = stopAll (threads.modify v .stop) ws := rfl
    rw [hcons, ih, total_load_move g fun t _ => load_stop g t]

/-- The balance of a step: what is sent is held, answered or dropped, and nothing is dropped in
service. -/
structure Balance (s : Workers) (a : Act) (s' : Workers) : Prop where
  sent : s'.sent = s.sent ++ a.sent?.toList
  answered : s'.answered = s.answered ++ ((s.answered? a).map fun msg =>
    (msg.connectionNum, msg.payload)).toList
  load : ∃ d, s'.threads.total (load g) + (s.answered? a).elim 0 g + d =
      s.threads.total (load g) + a.sent?.elim 0 g ∧ (Serving s a → AllNonNeg s → d = 0)

theorem Balance.kept (hsent : a.sent? = none) (hanswered : s.answered? a = none)
    (hs : s'.sent = s.sent)
    (ha : s'.answered = s.answered) (d : M)
    (htotal : s'.threads.total (Workers.load g) + d = s.threads.total (Workers.load g))
    (hd : Serving s a → d = 0) : Balance g s a s' where
  sent := by rw [hs, hsent]; simp
  answered := by rw [ha, hanswered]; simp
  load := ⟨d, by rw [hanswered, hsent]; simpa using htotal, fun hok _ => hd hok⟩

theorem Balance.moved {p : WorkerPool} {j : Joining} {f : WorkerThread → WorkerThread}
    (hsent : a.sent? = none)
    (hanswered : s.answered? a = none)
    (hf : ∀ t, s.threads.find w = some t → Workers.load g (f t) = Workers.load g t) :
    Balance g s a ⟨p, s.threads.modify w f, j, s.sent, s.answered⟩ :=
  .kept g hsent hanswered rfl rfl 0 (by rw [add_zero, total_load_move g hf]) fun _ => rfl

theorem Balance.steps {p : WorkerPool} {f : WorkerThread → WorkerThread} (hsent : a.sent? = none)
    (hanswered : s.answered? a = none) (ht : s.threads.find w = some t)
    (hf : Workers.load g (f t) = Workers.load g t) :
    Balance g s a ⟨p, s.threads.modify w f, s.joining, s.sent, s.answered⟩ :=
  .moved g hsent hanswered fun u hu => by rw [ht] at hu; cases hu; exact hf

theorem balance_sendToWorker {grp : Bytes} {msg : Message} {fresh : Ptr}
    (h : s.sendToWorker grp msg fresh = some s') (ha : Accounted s) :
    Balance g s (.sendToWorker grp msg fresh) s' := by
  obtain ⟨-, hf, ⟨v, pool, hp, rfl⟩ | ⟨pool, worker, hp, -, rfl⟩⟩ := sendToWorker_some h
  · obtain ⟨-, ⟨d, hd, -⟩, rfl⟩ | ⟨hnew, -⟩ := sendToWorker_ok hp
    · obtain ⟨t, ht, -⟩ := ha v d hd
      have hsent : load g (t.sendMessage msg) + 0 = load g t + g msg := by
        rw [load_sendMessage, add_zero]
      have htotal := SortedMap.total_modify_add (load g) (g := (·.sendMessage msg)) ht hsent
      exact ⟨rfl, by simp [answered?], 0, by simpa [answered?, Act.sent?] using htotal,
        fun _ _ => rfl⟩
    · simp at hnew
  · have htotal := SortedMap.total_insert (load g) (SortedMap.not_mem_iff.mp hf)
      ((WorkerThread.new worker).start.sendMessage msg)
    rw [load_new, add_comm] at htotal
    exact ⟨rfl, by simp [answered?], 0, by simpa [answered?, Act.sent?] using htotal,
      fun _ _ => rfl⟩

theorem balance_respond (ht : s.threads.find w = some t) (hst : t.started = true)
    (h : s.respond w t = some s') : Balance g s (.respond w) s' := by
  have hrun := running_some.mpr ⟨ht, hst⟩
  obtain ⟨msg, hpc, ⟨hc, rfl⟩ | ⟨hc, rfl⟩⟩ := respond_some h
  · have hload : load g (t.setPc (.leaving (some msg))) + g msg = load g t + 0 := by
      rw [load_respond g hpc (by simp), add_zero]
    have htotal := SortedMap.total_modify_add (load g)
      (g := (·.setPc (.leaving (some msg)))) ht hload
    refine ⟨by simp [Act.sent?], by simp [answered?, hrun, hpc, not_le.mpr hc], g msg, ?_,
      fun _ hn => absurd ((hn w t ht).handling msg hpc) (not_le.mpr hc)⟩
    simpa [answered?, Act.sent?, hrun, hpc, not_le.mpr hc] using htotal
  · have hload : load g (t.setPc .nudging) + g msg = load g t + 0 := by
      rw [load_respond g hpc (by simp), add_zero]
    have htotal := SortedMap.total_modify_add (load g) (g := (·.setPc .nudging)) ht hload
    refine ⟨by simp [Act.sent?], by simp [answered?, hrun, hpc, hc], 0, ?_, fun _ _ => rfl⟩
    simpa [answered?, Act.sent?, hrun, hpc, hc] using htotal

theorem balance_step (h : step s a = some s') (ha : Accounted s) : Balance g s a s' := by
  cases a with
  | sendToWorker grp msg fresh => exact balance_sendToWorker g h ha
  | requestExit v =>
    obtain ⟨-, -, rfl⟩ := requestExit_some h
    exact .moved g rfl rfl fun t _ => load_stop g t
  | stop =>
    obtain ⟨-, ws, pool, -, rfl⟩ := stop_some h
    exact .kept g rfl rfl rfl rfl 0 (by rw [add_zero, total_load_stopAll]) fun _ => rfl
  | join =>
    obtain ⟨-, rfl⟩ := join_some h
    exact .kept g rfl rfl rfl rfl 0 (add_zero _) fun _ => rfl
  | joined =>
    obtain ⟨v, -, hjoins, rfl⟩ := joined_some h
    obtain ⟨t, ht, -⟩ := (Option.any_eq_true _ _).mp hjoins
    split_ifs
    · refine .kept g rfl rfl rfl rfl (load g t) ?_ fun hok => absurd hok (by simp [Serving])
      rw [SortedMap.total_erase (load g) ht, add_comm]
    · exact .moved g rfl rfl fun t _ => load_join g t
  | reap =>
    obtain ⟨-, ⟨-, rfl⟩ | ⟨v, rest, -, hjoins, rfl⟩⟩ := reap_some h
    · exact .kept g rfl rfl rfl rfl 0 (add_zero _) fun _ => rfl
    · obtain ⟨t, ht, -⟩ := (Option.any_eq_true _ _).mp hjoins
      refine .kept g rfl rfl rfl rfl (load g t) ?_ fun hok => absurd hok (by simp [Serving])
      rw [SortedMap.total_erase (load g) ht, add_comm]
  | enter v =>
    obtain ⟨t, ht, -, h⟩ := step_running h
    obtain ⟨hpc, ⟨-, -, pool, -, rfl⟩ | ⟨-, rfl⟩⟩ := enter_some h
    · exact .steps g rfl rfl ht (load_of_eq g rfl (by simp [WorkerThread.setPc]) (by simp [hpc]))
    · exact .steps g rfl rfl ht (load_of_eq g rfl (by simp) (by simp [hpc]))
  | receive v =>
    obtain ⟨t, ht, -, h⟩ := step_running h
    obtain ⟨hpc, t₁, rfl, ⟨-, rfl⟩ | ⟨-, msg, rest, hm, rfl⟩⟩ := receive_some h
    · exact .steps g rfl rfl ht (load_of_eq g rfl (by simp) (by simp [hpc]))
    · exact .steps g rfl rfl ht (load_receive g hpc hm)
  | respond v =>
    obtain ⟨t, ht, hst, h⟩ := step_running h
    exact balance_respond g ht hst h
  | nudged v =>
    obtain ⟨t, ht, -, h⟩ := step_running h
    obtain ⟨hpc, rfl⟩ := nudged_some h
    exact .steps g rfl rfl ht (load_of_eq g rfl (by simp [WorkerThread.setPc]) (by simp [hpc]))
  | workerExited v =>
    obtain ⟨t, ht, -, h⟩ := step_running h
    obtain ⟨⟨msg, hpc⟩, -, rfl⟩ := workerExited_some h
    exact .steps g rfl rfl ht (load_of_eq g rfl (by simp [WorkerThread.setPc]) (by simp [hpc]))
  | ends v =>
    obtain ⟨t, ht, -, h⟩ := step_running h
    obtain ⟨hpc, rfl⟩ := ends_some h
    exact .steps g rfl rfl ht (load_of_eq g rfl (by simp [WorkerThread.setPc]) (by simp [hpc]))

end Load

/-! The measure by payloads. -/

theorem payloads_append (ms ms' : List Message) :
    payloads c (ms ++ ms') = payloads c ms + payloads c ms' := by
  simp [payloads]

theorem responses_append (rs rs' : List (ℤ × Bytes)) :
    responses c (rs ++ rs') = responses c rs + responses c rs' := by
  simp [responses]

theorem payloads_eq_sum (ms : List Message) :
    payloads c ms = (ms.map fun msg => payloads c [msg]).sum := by
  induction ms with
  | nil => rfl
  | cons msg ms ih => rw [List.map_cons, List.sum_cons, ← ih, ← payloads_append]; rfl

theorem held_eq_load : held c = load fun msg => payloads c [msg] := by
  funext t
  unfold held queued taken load
  rw [payloads_eq_sum t.messages]

theorem payloads_toList (o : Option Message) :
    payloads c o.toList = o.elim 0 fun msg => payloads c [msg] := by
  cases o <;> rfl

theorem responses_toList (o : Option Message) :
    responses c (o.map fun msg => (msg.connectionNum, msg.payload)).toList =
      o.elim 0 fun msg => payloads c [msg] := by
  cases o with
  | none => rfl
  | some msg => by_cases hc : msg.connectionNum = c <;> simp [responses, payloads, hc]

theorem conserved_step (h : step s a = some s') (hok : Serving s a) (ha : Accounted s)
    (hn : AllNonNeg s)
    (hi : Conserved c s) : Conserved c s' := by
  obtain ⟨hsent, hanswered, d, hload, hd⟩ := balance_step (fun msg => payloads c [msg]) h ha
  unfold Conserved at hi ⊢
  rw [held_eq_load] at hi ⊢
  rw [hd hok hn, add_zero] at hload
  rw [hsent, hanswered, payloads_append, responses_append, payloads_toList, responses_toList, hi,
    add_right_comm,
    ← hload, add_assoc, add_comm (responses c s.answered)]

/-- For every connection, the requests given to the workers are exactly those waiting, those
taken and those answered, each once. -/
theorem requests_conserved (h : Reachable step Serving init s) (c : ℤ) :
    payloads c s.sent =
      s.threads.total (queued c) + s.threads.total (taken c) + responses c s.answered := by
  have hc : AllNonNeg s ∧ Conserved c s := by
    refine h.invariant_of_reachable (fun s => AllNonNeg s ∧ Conserved c s)
      ⟨fun w t ht => by simp [init] at ht, rfl⟩ fun s a s' hr hok hs hi => ?_
    exact ⟨allNonNeg_step hs hok hi.1, conserved_step hs hok (accounted_of_reachable hr) hi.1 hi.2⟩
  rw [← SortedMap.total_add]
  exact hc.2

/-- Two requests from one connection and one from another; the first is answered, the second
taken, and the third waits. -/
def threeRequests : List Act :=
  [.sendToWorker (text "search") ⟨0, text "1", text "Gsearch", text "q"⟩ 1, .enter 1, .receive 1,
    .respond 1,
    .sendToWorker (text "search") ⟨0, text "2", text "Gsearch", text "r"⟩ 2, .enter 2, .receive 2,
    .sendToWorker (text "indexer") ⟨5, text "3", text "Gx", text "q"⟩ 3]

theorem requests_conserved_threeRequests : ∃ s, Reachable step Serving init s ∧
    payloads 0 s.sent = {text "q", text "r"} ∧ s.threads.total (queued 0) = 0 ∧
    s.threads.total (taken 0) = {text "r"} ∧
    payloads 0 s.sent = s.threads.total (queued 0) + s.threads.total (taken 0) +
      responses 0 s.answered := by
  obtain ⟨s, hs⟩ : ∃ s, exec step Serving init threeRequests = some s := ⟨_, rfl⟩
  have hr : Reachable step Serving init s := reachable_of_exec hs
  refine ⟨s, hr, ?_, ?_, ?_, requests_conserved hr 0⟩
  · cases hs; rfl
  · cases hs; rfl
  · cases hs; rfl

end Xaprun.Workers
