import Xaprun.Proofs.Decoding
import Xaprun.Proofs.UpdateOrder

/-! What a client makes of the answers of the workers. A worker answers with the payload of the
request and nothing else, so the client finds its request in the answer only if the payload is
itself such an answer. -/

namespace Xaprun

open Frames Runs

/-! The client. -/

namespace Client

variable {κ J : Type} (loads : Bytes → Option J)

theorem pass_frame {conn : Connection κ} (body : Bytes) (hlen : conn.readMsgLen = none)
    (hbuf : conn.readBuf = frame body) : pass loads conn =
      handleMessage loads { conn with
        readMsgLen := some (body.length : ℤ), readBuf := body } body.length := by
  rw [pass_of_text loads hlen hbuf (space_notMem_dec _) (int_dec _), readBody, if_pos le_rfl]

/-- A call of `check` that reads one frame at the boundary between two responses. -/
theorem check_frame {conn : Connection κ} (body : Bytes) (hbuf : conn.readBuf = [])
    (hlen : conn.readMsgLen = none) : check loads conn [.read (some (frame body))] =
      (handleMessage loads { conn with
        readMsgLen := some (body.length : ℤ), readBuf := body } body.length).andThen []
        fun conn => ⟨conn, [], [], none⟩ := by
  have hfirst : pass loads conn = .more { conn with readBuf := [], readMsgLen := none } := by
    simp only [pass, hlen, hbuf]
    rfl
  have hsecond : pass loads { conn with readBuf := [] ++ frame body, readMsgLen := none } = _ :=
    pass_frame loads body rfl rfl
  simp only [check, hfirst, Pass.andThen, hsecond]

theorem handled_handleMessage {conn conn' : Connection κ} {cb : κ} {result : Result J}
    (h : handleMessage loads conn conn.readBuf.length = .handled conn' cb result) :
    ∃ msgid rest, conn.readBuf = msgid ++ space :: rest ∧ conn.pending.lookup msgid = some cb := by
  have hto : sliceTo conn.readBuf conn.readBuf.length = conn.readBuf := by simp [sliceTo, bound]
  unfold handleMessage at h
  simp only [hto] at h
  cases hidx : conn.readBuf.findIdx? (· = space) with
  | none => simp [hidx, failed] at h
  | some i =>
    rw [hidx] at h
    cases hcb : conn.pending.lookup (conn.readBuf.take i) with
    | none =>
      simp only at h
      rw [hto, hcb] at h
      cases h
    | some cb' =>
      simp only at h
      rw [hto, hcb] at h
      cases h
      obtain ⟨hi, hspace, -⟩ := List.findIdx?_eq_some_iff_getElem.mp hidx
      refine ⟨conn.readBuf.take i, conn.readBuf.drop (i + 1), ?_, hcb⟩
      rw [← (of_decide_eq_true hspace : conn.readBuf[i] = space), List.getElem_cons_drop]
      exact (List.take_append_drop i conn.readBuf).symm

theorem answersTo_iff {msgid data : Bytes} (hid : space ∉ msgid) :
    ((∃ body, data = frame body) ∧ AnswersTo loads msgid data) ↔
      ∃ rest, data = frame (msgid ++ space :: rest) := by
  constructor
  · rintro ⟨⟨body, rfl⟩, h⟩
    -- a client that waits for nothing else
    obtain ⟨hout, -⟩ := h Unit ⟨AList.insert msgid () ∅, 0, [], none, false⟩ () rfl rfl
      (AList.lookup_insert _)
    rw [check_frame loads body rfl rfl] at hout
    cases hpass : handleMessage loads
        (⟨AList.insert msgid () ∅, 0, body, some (body.length : ℤ), false⟩ : Connection Unit)
          body.length with
    | handled conn' cb result =>
      obtain ⟨msgid', rest, hbody, hcb⟩ := handled_handleMessage loads hpass
      obtain rfl : msgid' = msgid := by
        by_contra hne
        rw [AList.lookup_insert_ne hne] at hcb
        cases hcb
      exact ⟨rest, congrArg frame hbody⟩
    | more conn' =>
      rw [hpass] at hout
      cases hout
    | failed conn' invoked msg =>
      rw [hpass] at hout
      cases hout
  · rintro ⟨rest, rfl⟩
    refine ⟨⟨_, rfl⟩, fun κ conn cb hbuf hlen hcb => ?_⟩
    let conn' : Connection κ := { conn with
      readMsgLen := some ((msgid ++ space :: rest).length : ℤ), readBuf := msgid ++ space :: rest }
    have hbody : conn'.readBuf = (msgid ++ space :: rest) ++ [] := (List.append_nil _).symm
    have heq := handleMessage_body loads hid hbody hcb
    have hcheck := check_frame loads (msgid ++ space :: rest) hbuf hlen
    rw [show handleMessage loads _ _ = _ from heq] at hcheck
    rw [hcheck]
    exact ⟨rfl, ⟨_, rfl⟩, rfl, rfl, rfl⟩

end Client

/-! The server. -/

namespace Workers

variable {s s' : Workers} {a : Act} {w : Ptr} {t t' : WorkerThread} {msg : Message}

theorem mem_unanswered : msg ∈ t.unanswered ↔ msg ∈ t.messages ∨ t.pc = .handling msg := by
  unfold WorkerThread.unanswered
  rw [List.mem_append]
  cases t.pc with
  | handling msg' => simp [eq_comm]
  | entering | waiting | nudging | leaving | left | ended => simp

theorem Evolves.unanswered (h : Evolves a t t') (hm : msg ∈ t'.unanswered) :
    a.sent? = some msg ∨ msg ∈ t.unanswered := by
  rw [mem_unanswered] at hm
  cases h with
  | same => exact .inr (mem_unanswered.mpr hm)
  | @sent _ msg' =>
    rcases hm with hm | hm
    · rcases List.mem_append.mp hm with hm | hm
      · exact .inr (mem_unanswered.mpr (.inl hm))
      · obtain rfl := List.mem_singleton.mp hm
        exact .inl rfl
    · exact .inr (mem_unanswered.mpr (.inr hm))
  | exitRequested | stopped =>
    rcases stop_eq t with heq | heq <;> exact .inr (mem_unanswered.mpr (by simpa [heq] using hm))
  | joined =>
    unfold WorkerThread.join at hm
    split_ifs at hm <;> exact .inr (mem_unanswered.mpr hm)
  | received _ _ hms =>
    refine .inr (mem_unanswered.mpr (.inl ?_))
    rw [hms]
    rcases hm with hm | hm
    · exact List.mem_cons_of_mem _ hm
    · cases hm
      exact List.mem_cons_self
  | entered | interrupted | broke | responded | nudged | exited | ended =>
    rcases hm with hm | hm
    · exact .inr (mem_unanswered.mpr (.inl hm))
    · cases hm

theorem unanswered_step (h : step s a = some s') (ht : s'.threads.find w = some t')
    (hm : msg ∈ t'.unanswered) :
    a.sent? = some msg ∨ ∃ t, s.threads.find w = some t ∧ msg ∈ t.unanswered := by
  rcases step_evolved h ht with ⟨t, ht, he⟩ | ⟨-, g, msg', worker, rfl, rfl⟩
  · exact (he.unanswered hm).imp_right fun hm => ⟨t, ht, hm⟩
  · refine .inl ?_
    obtain rfl : msg = msg' := by
      simpa [WorkerThread.unanswered, WorkerThread.new, WorkerThread.start,
        WorkerThread.sendMessage] using hm
    rfl

end Workers

namespace Server

variable {write : Writer} {capacity : ℕ} {s s' : Server} {a : Act} {es : List Event} {msg : Message}

theorem mem_routed : msg ∈ es.filterMap Event.routed? ↔ ∃ group, .routed group msg ∈ es := by
  rw [List.mem_filterMap]
  constructor
  · rintro ⟨e, he, heq⟩
    cases e with
    | routed group msg' =>
      obtain rfl : msg' = msg := Option.some.inj heq
      exact ⟨group, he⟩
    | handled | pushed | dispatched | wrote | eof => cases heq
  · rintro ⟨group, h⟩
    exact ⟨_, h, rfl⟩

theorem handled_emit {response : ℤ × Bytes} (h : .handled msg response ∈ s.emit a) :
    ∃ w t, s.workers.threads.find w = some t ∧ msg ∈ t.unanswered ∧
      response = (msg.connectionNum, msg.payload) := by
  unfold emit at h
  split at h
  · rename_i w
    split at h
    · rename_i heq
      obtain ⟨t, ht, hanswer⟩ := Option.bind_eq_some_iff.mp heq
      obtain ⟨ht, -⟩ := Workers.running_some.mp ht
      unfold WorkerThread.answer at hanswer
      split at hanswer
      · rename_i taken hpc
        obtain ⟨echoed, hrun, hpair⟩ := Option.map_eq_some_iff.mp hanswer
        obtain ⟨rfl, rfl⟩ := Prod.mk.inj hpair
        obtain ⟨rfl, rfl⟩ : msg = taken ∧ response = echoed := by simpa using h
        rw [Workers.run_eq, echo] at hrun
        obtain ⟨-, hrun⟩ := Option.ite_none_left_eq_some.mp hrun
        exact ⟨w, t, ht, Workers.mem_unanswered.mpr (.inr hpc), (Option.some.inj hrun).symm⟩
      · cases hanswer
    · cases h
  · split at h
    · simp at h
    · simp at h
    · cases h
  · simp at h
  · split at h <;> simp at h
  · split at h <;> simp at h
  · cases h

theorem space_notMem_of_received {c : ℤ} {readBuf data group : Bytes}
    (h : .sendToWorker group msg ∈ (received write c readBuf data).1) : space ∉ msg.msgid := by
  obtain ⟨call, -, heq⟩ := List.mem_map.mp h
  cases call with
  | routeMessage c' buf pos msglen => exact space_notMem_msgid (sendToWorker_of_routeMessage heq).1
  | sendFatalError => cases heq

/-- The messages of a run: their ids have no spaces, a worker holds and answers what has been
routed, and an answer is the payload. -/
structure Traced (es : List Event) (s : Server) : Prop where
  pending : ∀ group msg, .sendToWorker group msg ∈ pending s.main → space ∉ msg.msgid
  routed : ∀ msg ∈ es.filterMap Event.routed?, space ∉ msg.msgid
  held : ∀ w t, s.workers.threads.find w = some t →
    ∀ msg ∈ t.unanswered, msg ∈ es.filterMap Event.routed?
  handled : ∀ msg response, .handled msg response ∈ es →
    msg ∈ es.filterMap Event.routed? ∧ response = (msg.connectionNum, msg.payload)

theorem Traced.step (h : Traced es s) (hs : s.step write capacity a = some s')
    (hsane : Sane capacity s) :
    Traced (es ++ s.emit a) s' := by
  have hmoves := moves_of_step hs
  refine ⟨fun group msg hmem => ?_, fun msg hmem => ?_, fun w t ht msg hmem => ?_,
    fun msg response hmem => ?_⟩
  · rcases pending_moves hmoves _ hmem with hmem | ⟨c, readBuf, data, hmem⟩
    · exact h.pending group msg hmem
    · exact space_notMem_of_received hmem
  · rw [List.filterMap_append] at hmem
    rcases List.mem_append.mp hmem with hmem | hmem
    · exact h.routed msg hmem
    · obtain ⟨fresh, group, effects, pass, -, hm⟩ := routed_emit hmem
      exact h.pending group msg (by rw [hm]; exact List.mem_cons_self)
  · rw [List.filterMap_append, List.mem_append]
    rcases workers_emit hmoves hsane with ⟨hw, -⟩ | ⟨b, hb, hrouted, -⟩
    · exact .inl (h.held w t (hw ▸ ht) msg hmem)
    · rcases Workers.unanswered_step hb ht hmem with hsent | ⟨t₀, ht₀, hmem₀⟩
      · refine .inr ?_
        rw [hrouted, hsent]
        exact List.mem_singleton_self msg
      · exact .inl (h.held w t₀ ht₀ msg hmem₀)
  · rw [List.filterMap_append, List.mem_append]
    rcases List.mem_append.mp hmem with hmem | hmem
    · exact (h.handled msg response hmem).imp_left .inl
    · obtain ⟨w, t, ht, hunanswered, heq⟩ := handled_emit hmem
      exact ⟨.inl (h.held w t ht msg hunanswered), heq⟩

theorem traced_of_logged {useStdio : Bool}
    (h : Logged (step write capacity) free emit (init useStdio) es s) :
    Traced es s := by
  refine h.invariant Traced ?_ fun es s a s' hr _ hs hi => hi.step hs (sane_of_reachable hr)
  exact ⟨by simp [init, pending], by simp, by simp [init, Workers.init], by simp⟩

/-- In every run, the answer that a worker queues is for the connection of a message that has
been routed to it, and it is a response that the client takes for the answer to this message if
and only if the payload of the message is such a response. -/
theorem worker_answers_iff {useStdio : Bool} {J : Type} (loads : Bytes → Option J) {c : ℤ}
    {response : Bytes}
    (h : Logged (step write capacity) free emit (init useStdio) es s)
    (hm : .handled msg (c, response) ∈ es) :
    (∃ group, .routed group msg ∈ es) ∧ c = msg.connectionNum ∧
      (((∃ body, response = frame body) ∧ Client.AnswersTo loads msg.msgid response) ↔
        ∃ rest, msg.payload = frame (msg.msgid ++ space :: rest)) := by
  have hi := traced_of_logged h
  obtain ⟨hrouted, heq⟩ := hi.handled msg (c, response) hm
  obtain ⟨rfl, rfl⟩ := Prod.mk.inj heq
  exact ⟨mem_routed.mp hrouted, rfl, Client.answersTo_iff loads (hi.routed msg hrouted)⟩

/-- A GET request, and the worker's answer. -/
def askWorker (request : Bytes) : List Act :=
  [.loop, .select [0] [], .connRead (some request), .execute 1, .thread (.enter 1),
    .thread (.receive 1),
    .thread (.respond 1)]

/-- A payload that is the answer to its own request. -/
theorem worker_answers_iff_frame :
    ∃ es s, Logged (step fastWriter 4) free emit (init true) es s ∧
      .handled ⟨0, text "0", text "Gdb/a", text "5 0 Sok"⟩ (0, text "5 0 Sok") ∈ es ∧
      Client.AnswersTo (fun _ => (none : Option Unit)) (text "0") (text "5 0 Sok") := by
  have hrun : ∃ es s, trace (step fastWriter 4) free emit (init true)
      (askWorker (text "15 0 Gdb/a 5 0 Sok")) = some (es, s) ∧
      .handled ⟨0, text "0", text "Gdb/a", text "5 0 Sok"⟩ (0, text "5 0 Sok") ∈ es :=
    exists_of_trace (by decide +kernel)
  obtain ⟨es, s, htrace, hm⟩ := hrun
  have hlog := logged_of_trace htrace
  obtain ⟨-, -, hiff⟩ := worker_answers_iff (fun _ => (none : Option Unit)) hlog hm
  exact ⟨es, s, hlog, hm, (hiff.mpr ⟨text "Sok", by decide⟩).2⟩

/-- Any other payload: the answer to it is no response at all. -/
theorem worker_answers_hello :
    ¬ ∃ loads : Bytes → Option Unit, ∀ es s, Logged (step fastWriter 4) free emit (init true) es s →
      ∀ msg c response, .handled msg (c, response) ∈ es →
        (∃ body, response = frame body) ∧ Client.AnswersTo loads msg.msgid response := by
  rintro ⟨loads, h⟩
  have hrun : ∃ es s, trace (step fastWriter 4) free emit (init true)
      (askWorker (text "13 0 Gdb/a hello")) = some (es, s) ∧
      .handled ⟨0, text "0", text "Gdb/a", text "hello"⟩ (0, text "hello") ∈ es :=
    exists_of_trace (by decide +kernel)
  obtain ⟨es, s, htrace, hm⟩ := hrun
  have hanswers := h es s (logged_of_trace htrace) _ _ _ hm
  obtain ⟨body, heq⟩ := hanswers.1
  have hspace : space ∈ text "hello" := by
    rw [heq]
    exact List.mem_append_right _ List.mem_cons_self
  exact absurd hspace (by decide)

end Server

end Xaprun
