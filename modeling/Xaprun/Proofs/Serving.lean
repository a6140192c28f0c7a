import Xaprun.Proofs.Draining
import Xaprun.Proofs.Traffic

/-! The clients are served. What the dispatcher is asked comes to a response, its own or that of a
worker; and when the server has come to rest, the responses have been written to the connection they
are for. -/

namespace Xaprun

open Frames Runs

namespace Workers

variable {s s' : Workers} {a : Act}

theorem conserved_of_serving (h : Reachable step Serving init s) (c : ℤ) : Conserved c s := by
  have hboth : AllNonNeg s ∧ Conserved c s := by
    refine h.invariant_of_reachable (fun s => AllNonNeg s ∧ Conserved c s)
      ⟨fun w t ht => by simp [init] at ht, rfl⟩ fun s a s' hr hok hs hi => ?_
    exact ⟨allNonNeg_step hs hok hi.1, conserved_step hs hok (accounted_of_reachable hr) hi.1 hi.2⟩
  exact hboth.2

theorem answered_of_waiting (h : Reachable step Serving init s)
    (hwaiting : ∀ w t, s.threads.find w = some t → t.pc = .waiting ∧ t.messages = []) (c : ℤ) :
    responses c s.answered = payloads c s.sent := by
  have hnone : s.threads.total (held c) = 0 := by
    by_contra hne
    obtain ⟨w, t, ht, hheld⟩ := SortedMap.exists_of_total_ne_zero (held c) hne
    obtain ⟨hpc, hm⟩ := hwaiting w t ht
    refine hheld ?_
    rw [held, queued, taken, hpc, hm]
    rfl
  have hconserved := conserved_of_serving h c
  rw [Conserved, hnone, zero_add] at hconserved
  exact hconserved.symm

theorem answered_respond (s : Workers) (w : Ptr) :
    ((s.answered? (.respond w)).map fun msg => (msg.connectionNum, msg.payload)) =
      (s.running w).bind WorkerThread.response := by
  simp only [answered?]
  cases s.running w with
  | none => rfl
  | some t =>
    simp only [Option.bind_some, WorkerThread.response]
    cases t.pc with
    | handling msg =>
      simp only [run_eq, echo]
      by_cases hc : msg.connectionNum < 0
      · rw [if_pos hc, if_neg (not_le.mpr hc)]
        rfl
      · rw [if_neg hc, if_pos (not_lt.mp hc)]
        rfl
    | entering | waiting | nudging | leaving | left | ended => rfl

end Workers

def Effect.direct? : Effect → Option (ℤ × Bytes)
  | .sendResponse connectionNum response => some (connectionNum, response)
  | .sendToWorker .. => none

def Effect.message? : Effect → Option Message
  | .sendResponse .. => none
  | .sendToWorker _ msg => some msg

/-- The responses to the calls for a connection are those of the dispatcher and what the workers
make of the messages. -/
theorem responses_calls {c : ℤ} (hc : 0 ≤ c) (calls : List Effect) :
    ((calls.filter (·.conn = c)).map Effect.response).Perm
      (((calls.filterMap Effect.direct?).filter (·.1 = c)).map Prod.snd ++
        ((calls.filterMap Effect.message?).filter (·.connectionNum = c)).map Message.payload) := by
  induction calls with
  | nil => exact .refl _
  | cons e calls ih =>
    cases e with
    | sendResponse c' response =>
      have hdirect : (Effect.sendResponse c' response :: calls).filterMap Effect.direct? =
          (c', response) :: calls.filterMap Effect.direct? := rfl
      have hmessage : (Effect.sendResponse c' response :: calls).filterMap Effect.message? =
          calls.filterMap Effect.message? := rfl
      rw [hdirect, hmessage]
      by_cases hconn : c' = c
      · rw [List.filter_cons_of_pos (by simp [Effect.conn, hconn]),
          List.filter_cons_of_pos (by simpa using hconn)]
        exact ih.cons response
      · rw [List.filter_cons_of_neg (by simp [Effect.conn, hconn]),
          List.filter_cons_of_neg (by simpa using hconn)]
        exact ih
    | sendToWorker group msg =>
      have hdirect : (Effect.sendToWorker group msg :: calls).filterMap Effect.direct? =
        calls.filterMap Effect.direct? := rfl
      have hmessage : (Effect.sendToWorker group msg :: calls).filterMap Effect.message? =
          msg :: calls.filterMap Effect.message? := rfl
      rw [hdirect, hmessage]
      by_cases hconn : msg.connectionNum = c
      · have hresponse : (Effect.sendToWorker group msg).response = msg.payload := by
          rw [Effect.response, echo, if_neg (not_lt.mpr (hconn ▸ hc))]
          rfl
        rw [List.filter_cons_of_pos (by simp [Effect.conn, hconn]),
          List.filter_cons_of_pos (by simpa using hconn), List.map_cons,
          hresponse]
        exact (ih.cons msg.payload).trans List.perm_middle.symm
      · rw [List.filter_cons_of_neg (by simp [Effect.conn, hconn]),
          List.filter_cons_of_neg (by simpa using hconn)]
        exact ih

namespace Server

variable {write : Writer} {capacity : ℕ} {useStdio : Bool} {s s' : Server} {a : Act}
  {es : List (Traffic ⊕ Event)}

/-! The calls and the responses. -/

def Traffic.call? : Traffic → Option Effect
  | .read .. => none
  | .called e => some e

def calls (ts : List Traffic) : List Effect := ts.filterMap Traffic.call?

theorem called_eq (c : ℤ) (ts : List Traffic) : called c ts = (calls ts).filter (·.conn = c) := by
  induction ts with
  | nil => rfl
  | cons x ts ih =>
    cases x with
    | read => exact ih
    | called e =>
      by_cases hconn : e.conn = c
      · have hleft : called c (.called e :: ts) = e :: called c ts := by
          simp [called, Traffic.effect?, hconn]
        rw [hleft, ih]
        exact (List.filter_cons_of_pos (by simpa using hconn)).symm
      · have hleft : called c (.called e :: ts) = called c ts := by
          simp [called, Traffic.effect?, hconn]
        rw [hleft, ih]
        exact (List.filter_cons_of_neg (by simpa using hconn)).symm

theorem trafficOf_record (es : List (Traffic ⊕ Event)) (s : Server) (a : Act) :
    trafficOf (es ++ s.record a) = trafficOf es ++ s.traffic a := by
  simp [trafficOf, record, List.filterMap_append, List.filterMap_map, Function.comp_def]

theorem eventsOf_record (es : List (Traffic ⊕ Event)) (s : Server) (a : Act) :
    eventsOf (es ++ s.record a) = eventsOf es ++ s.emit a := by
  simp [eventsOf, record, List.filterMap_append, List.filterMap_map, Function.comp_def]

/-- What has been pushed are the responses of the dispatcher and those of the workers, and the
workers have been sent what the dispatcher has handed over. -/
structure Replied (es : List (Traffic ⊕ Event)) (s : Server) : Prop where
  pushed : (pushed (eventsOf es) : Multiset (ℤ × Bytes)) =
    ((calls (trafficOf es)).filterMap Effect.direct? : List (ℤ × Bytes)) +
      (s.workers.answered : Multiset (ℤ × Bytes))
  sent : s.workers.sent = (calls (trafficOf es)).filterMap Effect.message?

/-- A step in which the dispatcher makes the calls `es'` and the workers push the responses `rs`. -/
theorem Replied.next (h : Replied es s) (es' : List Effect) (rs : List (ℤ × Bytes))
    (hcalls : calls (s.traffic a) = es')
    (hpushed : Server.pushed (s.emit a) = es'.filterMap Effect.direct? ++ rs)
    (hanswered : s'.workers.answered = s.workers.answered ++ rs)
    (hsent : s'.workers.sent = s.workers.sent ++ es'.filterMap Effect.message?) :
    Replied (es ++ s.record a) s' := by
  have happend : calls (trafficOf es ++ s.traffic a) = calls (trafficOf es) ++ es' := by
    rw [← hcalls]
    exact List.filterMap_append
  constructor
  · rw [eventsOf_record, trafficOf_record, pushed_append, hpushed, hanswered, happend,
      List.filterMap_append]
    simp only [← Multiset.coe_add]
    rw [h.pushed, add_add_add_comm]
  · rw [trafficOf_record, happend, List.filterMap_append, hsent, h.sent]

theorem history_step {b : Workers.Act} {workers : Workers}
    (hr : Reachable (step write capacity) free (init useStdio) s)
    (h : s.workers.step b = some workers) :
    workers.answered = s.workers.answered ++
        ((s.workers.answered? b).map fun msg => (msg.connectionNum, msg.payload)).toList ∧
      workers.sent = s.workers.sent ++ b.sent?.toList := by
  have hbalance := Workers.balance_step (fun _ => 0) h
    (Workers.accounted_of_reachable (workers_reachable hr))
  exact ⟨hbalance.answered, hbalance.sent⟩

theorem Replied.idle (h : Replied es s) (hcalls : s.traffic a = [])
    (hpushed : Server.pushed (s.emit a) = [])
    (hanswered : s'.workers.answered = s.workers.answered)
    (hsent : s'.workers.sent = s.workers.sent) :
    Replied (es ++ s.record a) s' :=
  h.next [] [] (by rw [hcalls]; rfl) (by rw [hpushed]; rfl) (by rw [hanswered, List.append_nil])
    (by rw [hsent]; exact (List.append_nil _).symm)

theorem Replied.step (h : Replied es s)
    (hr : Reachable (step write capacity) free (init useStdio) s)
    (hs : s.step write capacity a = some s') : Replied (es ++ s.record a) s' := by
  have hgrows : a ≠ .dispatchResponses → s'.outgoing = s.outgoing ++ Server.pushed (s.emit a) :=
    outgoing_step hs
  have hquiet : s'.outgoing = s.outgoing → a ≠ .dispatchResponses → Server.pushed (s.emit a) = [] :=
      fun hsame ha =>
    List.self_eq_append_right.mp (hsame.symm.trans (hgrows ha))
  cases moves_of_step hs with
  | @quiet b workers hq hw =>
    obtain ⟨hanswered, hsent⟩ := history_step hr hw
    refine h.idle rfl (hquiet rfl (by simp)) ?_ ?_
    · cases b <;> simp_all [quiet, Workers.answered?]
    · cases b <;> simp_all [quiet, Workers.Act.sent?]
  | @respond w workers hw =>
    obtain ⟨hanswered, hsent⟩ := history_step hr hw
    rw [Workers.answered_respond] at hanswered
    refine h.next [] _ rfl ?_ hanswered hsent
    exact (List.append_cancel_left (hgrows (by simp))).symm
  | nudged _ hw | stop _ hw | join _ hw | joined _ hw | reap _ hw =>
    obtain ⟨hanswered, hsent⟩ := history_step hr hw
    exact h.idle rfl (hquiet rfl (by simp)) (by simpa [Workers.answered?] using hanswered)
      (by simpa [Workers.Act.sent?] using hsent)
  | dispatchResponses => exact h.idle rfl (pushed_dispatched _).1 rfl rfl
  | connSkip hm hd => exact h.idle (traffic_connRead_nil _ hd) (hquiet rfl (by simp)) rfl rfl
  | @connRead data c i todo closed connections hm hne =>
    refine h.next [] [] ?_ (hquiet rfl (by simp)) (List.append_nil _).symm (List.append_nil _).symm
    obtain ⟨b, bs, rfl⟩ := List.exists_cons_of_ne_nil hne
    rw [traffic, hm]
    rfl
  | @answer fresh connectionNum response effects pass hm =>
    refine h.next [.sendResponse connectionNum response] [] ?_ ?_ (List.append_nil _).symm
      (List.append_nil _).symm
    · rw [traffic, hm]
      rfl
    · exact (List.append_cancel_left (hgrows (by simp))).symm
  | @handOver fresh group msg effects pass workers hm hw =>
    obtain ⟨hanswered, hsent⟩ := history_step hr hw
    refine h.next [.sendToWorker group msg] [] ?_ (hquiet rfl (by simp)) ?_ hsent
    · rw [traffic, hm]
      rfl
    · simpa [Workers.answered?] using hanswered
  | shutdown | loop | leave | interrupted | selectNudge | selectConns | readNudge | readShutdown
  | connWrite | endPass
  | writeNudge | endDispatch => exact h.idle rfl (hquiet rfl (by simp)) rfl rfl

/-! The bytes written. -/

theorem Intact.connWrite {events : List Event} {n : ℕ} (h : Intact events s)
    (hs : s.step write capacity (.connWrite (some n)) = some s') :
    Intact (events ++ s.emit (.connWrite (some n))) s' := by
  simp only [Server.step] at hs
  split at hs
  · rename_i c todo closed hm
    obtain ⟨hpos, hs'⟩ := Option.ite_none_right_eq_some.mp hs
    obtain ⟨i, hi, hs'⟩ := Option.bind_eq_some_iff.mp hs'
    obtain ⟨hle, hs'⟩ := Option.ite_none_right_eq_some.mp hs'
    obtain rfl := Option.some.inj hs'
    -- one call of `write` that transfers so many bytes
    have hwritten : ioWriteSome i.writeBuf.length [.wrote n] = some (n : ℤ) := by
      rw [ioWriteSome, if_neg (by omega)]
    have hstep : writeStep write capacity s (.write [.wrote n]) = some { s with
        connections := s.connections.modify c fun i => { i with writeBuf := i.writeBuf.drop n }
        main := .conns ⟨todo, closed⟩ } := by
      simp only [writeStep, hm, hi, Option.bind_some, hwritten, connWritten]
      rw [if_neg (by omega), if_pos (by exact_mod_cast hle), Int.toNat_natCast]
    have hemit : s.writeEmit (.write [.wrote n]) = s.emit (.connWrite (some n)) := by
      simp only [writeEmit, emit, hm, hi, hwritten, Option.getD_some, Int.toNat_natCast,
        Option.elim_some]
    exact hemit ▸ h.wrote hstep
  · cases hs

theorem Intact.next {events : List Event} (h : Intact events s)
    (hs : s.step write capacity a = some s') :
    Intact (events ++ s.emit a) s' := by
  by_cases hwrite : ∃ n, a = .connWrite n
  · obtain ⟨n, rfl⟩ := hwrite
    cases n with
    | none =>
      simp only [Server.step] at hs
      split at hs
      · obtain rfl := Option.some.inj hs
        exact h.quiet (List.append_nil _).symm rfl (fun _ => rfl) fun c i hi => ⟨i, hi, rfl⟩
      · cases hs
    | some n => exact h.connWrite hs
  · exact h.step hs fun n hn => hwrite ⟨n, hn⟩

theorem replied_of_logged (h : Logged (step write capacity) free record (init useStdio) es s) :
    Replied es s :=
  h.invariant Replied ⟨rfl, rfl⟩ fun _ _ _ _ hr _ hs hi => hi.step hr hs

theorem intact_of_record (h : Logged (step write capacity) free record (init useStdio) es s) :
    Intact (eventsOf es) s := by
  refine h.invariant (fun es s => Intact (eventsOf es) s) (intact_init useStdio)
    fun es s a s' _ _ hs hi => ?_
  rw [eventsOf_record]
  exact hi.next hs

theorem digested_of_record (h : Logged (step write capacity) free record (init useStdio) es s) :
    Digested write (trafficOf es) s := by
  refine h.invariant (fun es s => Digested write (trafficOf es) s) (digested_init useStdio)
    fun es s a s' _ _ hs hi => ?_
  rw [trafficOf_record]
  exact hi.step hs

/-- Every client of a server that has nothing left to do has got the responses to its requests. -/
theorem served_of_settled (h : Logged (step write capacity) free record (init useStdio) es s)
    (hs : Settled s) {c : ℤ}
    (hc : c ∈ s.connections) : Served write es c := by
  have hr := h.reachable
  have hsane := sane_of_reachable hr
  have hserving : serving s.main = true := by
    rw [hs.main]
    rfl
  obtain ⟨i, hi⟩ := SortedMap.mem_iff_exists.mp hc
  have hintact := intact_of_record h
  have hreplied := replied_of_logged h
  obtain ⟨hcalled, -⟩ := digested_of_record h c i hi
  have hnone : uncalled c s.main = [] := by
    rw [hs.main]
    rfl
  rw [hnone, List.append_nil, called_eq] at hcalled
  have hqueue := hintact.queue
  rw [hs.queue, List.append_nil] at hqueue
  have hstream := hintact.stream c i hi
  rw [hs.written c i hi, List.append_nil] at hstream
  unfold responsesFor at hstream
  refine ⟨_, hstream, ?_⟩
  have hworkers := Workers.answered_of_waiting
    (hsane.engaged hserving).workers.reachable hs.workers c
  rw [hreplied.sent] at hworkers
  have hpushed : Workers.responses c (pushed (eventsOf es)) =
      Workers.responses c ((calls (trafficOf es)).filterMap Effect.direct?) +
          Workers.responses c s.workers.answered := by
    rw [← Workers.responses_append]
    exact Multiset.coe_eq_coe.mpr (((Multiset.coe_eq_coe.mp hreplied.pushed).filter _).map _)
  rw [hworkers, hqueue] at hpushed
  have hcalls := responses_calls (hsane.numbers c hc) (calls (trafficOf es))
  rw [hcalled, List.map_map] at hcalls
  exact (Multiset.coe_eq_coe.mp hpushed).trans hcalls.symm

/-- Whatever the server has read, and wherever its threads are: when nobody asks it anything more,
then in whatever order the threads and the main loop take their steps, and however little each write
takes, after finitely many steps every client that is still there has got the responses to its
requests, each of them once and whole; unless the main thread waits for room in the nudge socket. -/
theorem requests_served (h : Logged (step write capacity) free record (init useStdio) es s)
    (hserves : Serves s)
    (hcapacity : 0 < capacity) :
    Inevitable (recorded (step write capacity) record) (fun p => Emptying p.2)
      (fun p => (Settled p.2 ∧ ∀ c, c ∈ p.2.connections → Served write p.1 c) ∨
        Deadlocked capacity p.2 ∨
        p.2.connections.toList = []) (es, s) := by
  refine (comes_to_rest h.reachable hserves hcapacity).recorded
    (Q := fun es s => (Settled s ∧ ∀ c, c ∈ s.connections → Served write es c) ∨
      Deadlocked capacity s ∨
      s.connections.toList = []) (fun _ _ _ => trivial) (fun es s hlog hrest => ?_) h
  rcases hrest with hsettled | hrest
  · exact .inl ⟨hsettled, fun c hc => served_of_settled hlog hsettled hc⟩
  · exact .inr hrest

/-- A request for the dispatcher and one for a worker, in one read. -/
def versionAndSearch : List Act :=
  [.loop, .select [0] [], .connRead (some (text "11 0 Gversion 17 1 Gdb/a/_schema q")), .execute 0]

theorem requests_served_versionAndSearch :
    ∃ es s, trace (step fastWriter 2) free record (init true) versionAndSearch = some (es, s) ∧
      s.outgoing = [(0, sendMsgResponse (text "0") (byte 'S') version)] ∧
      Inevitable (recorded (step fastWriter 2) record) (fun p => Emptying p.2)
        (fun p => (Settled p.2 ∧ ∀ c, c ∈ p.2.connections → Served fastWriter p.1 c) ∨
          Deadlocked 2 p.2 ∨
          p.2.connections.toList = []) (es, s) := by
  have hrun : ∃ es s, trace (step fastWriter 2) free record (init true) versionAndSearch =
    some (es, s) ∧
      s.outgoing = [(0, sendMsgResponse (text "0") (byte 'S') version)] ∧ ended s.main = false ∧
          .S ∉ s.nudge :=
    exists_of_trace (by decide +kernel)
  obtain ⟨es, s, htrace, hqueue, hlooping, hnudge⟩ := hrun
  exact ⟨es, s, htrace, hqueue, requests_served (logged_of_trace htrace)
    ⟨hlooping, hnudge⟩ Nat.two_pos⟩

end Server

end Xaprun
