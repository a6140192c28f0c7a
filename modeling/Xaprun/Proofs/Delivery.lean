import Xaprun.Proofs.Lasting
import Xaprun.Proofs.Serving

/-! A client that stays and reads gets its answers from a server that goes on for ever, however much
else there is to do. -/

namespace Xaprun

open Frames Runs

namespace Server

variable {write : Writer} {capacity : ℕ} {useStdio : Bool} {s : ℕ → Server} {act : ℕ → Option Act}
  {n : ℕ} {c : ℤ}

/-- What the server has yet to write to the connection. -/
def toWrite (s : Server) (c : ℤ) : Bytes := (s.connections.find c).elim [] Connection.writeBuf

/-- The client of the connection stays, and reads what it is sent: no write to it fails, and
`select` reports it if there is always something to write to it. -/
structure Reading (s : ℕ → Server) (act : ℕ → Option Act) (c : ℤ) : Prop where
  stays : ∀ n, c ∈ (s n).connections
  takes : ∀ n todo closed, (s n).main = .conns ⟨.write c :: todo, closed⟩ →
    act n ≠ some (.connWrite none)
  reported : ∀ n, (∀ m, n ≤ m → (s m).toWrite c ≠ []) →
    ∃ m readable writable, n ≤ m ∧ act m = some (.select readable writable) ∧ c ∈ writable

/-! The visits of a pass. -/

theorem write_kept {s s' : Server} {a : Act} {pass : Pass} (h : s.step write capacity a = some s')
    (hp : pass ∈ passOf s.main) (hw : .write c ∈ pass.todo) (hlasting : ended s'.main = false) :
    (∃ pass' ∈ passOf s'.main, .write c ∈ pass'.todo) ∨
      ∃ n todo closed, a = .connWrite n ∧ s.main = .conns ⟨.write c :: todo, closed⟩ := by
  have hpass : ∃ pass', pass' ∈ passOf s'.main := by
    cases moves_of_step h with
    | quiet | respond | nudged | shutdown => exact ⟨pass, hp⟩
    | loop hm | leave hm | interrupted hm | selectNudge hm | selectConns hm | stop hm | join hm
    | joined hm | reap hm =>
      rw [hm] at hp
      cases hp
    | readShutdown => cases hlasting
    | readNudge | dispatchResponses | connSkip | connRead | connWrite | answer | handOver
    | writeNudge | endDispatch =>
      exact ⟨_, rfl⟩
    | endPass =>
      simp only [step] at h
      split at h
      · rename_i hm
        rw [hm] at hp
        obtain rfl := Option.some.inj hp
        cases hw
      · cases h
  obtain ⟨pass', hp'⟩ := hpass
  cases passes_of_step h pass' hp' with
  | selected hm =>
    rw [hm] at hp
    cases hp
  | same hp₂ htodo =>
    obtain rfl := Option.some.inj (hp.symm.trans hp₂)
    exact .inl ⟨pass', hp', htodo ▸ hw⟩
  | read hp₂ htodo =>
    obtain rfl := Option.some.inj (hp.symm.trans hp₂)
    rw [htodo] at hw
    exact .inl ⟨pass', hp', (List.mem_cons.mp hw).resolve_left (by simp)⟩
  | @wrote c' k pass₂ _ hm htodo =>
    rw [hm] at hp
    obtain rfl := Option.some.inj hp
    rw [htodo] at hw
    rcases List.mem_cons.mp hw with hv | hw
    · obtain rfl := Visit.write.inj hv
      exact .inr ⟨k, pass'.todo, pass₂.closedConnections, rfl, by rw [hm, ← htodo]⟩
    · exact .inl ⟨pass', hp', hw⟩

theorem Lasting.visited (h : Lasting write capacity useStdio s act) {pass : Pass}
    (hp : pass ∈ passOf (s n).main)
    (hw : .write c ∈ pass.todo) :
    ∃ m k todo closed, n ≤ m ∧ act m = some (.connWrite k) ∧
      (s m).main = .conns ⟨.write c :: todo, closed⟩ := by
  by_contra hnone
  have hkept : ∀ m, n ≤ m → ∃ pass ∈ passOf (s m).main, .write c ∈ pass.todo :=
    h.path.keeps (P := fun t => ∃ pass ∈ passOf t.main, .write c ∈ pass.todo) ⟨pass, hp, hw⟩
        fun m a hm hact hkept => by
      obtain ⟨pass, hp, hw⟩ := hkept
      rcases write_kept (h.path.moves m a hact).2 hp hw (h.lasting (m + 1))
        with hkept | ⟨k, todo, closed, rfl, hmain⟩
      · exact hkept
      · exact absurd ⟨m, k, todo, closed, hm, hact, hmain⟩ hnone
  -- but in the next select there is no pass
  obtain ⟨m, hm, hselect⟩ := h.selects n
  obtain ⟨pass, hp, -⟩ := hkept m hm
  rw [hselect] at hp
  cases hp

theorem Lasting.writes (h : Lasting write capacity useStdio s act) (hreading : Reading s act c)
    (hne : ∀ m, n ≤ m → (s m).toWrite c ≠ []) :
    ∃ m a, n ≤ m ∧ act m = some a ∧ written c ((s m).emit a) ≠ [] := by
  obtain ⟨m, readable, writable, hm, hact, hc⟩ := hreading.reported n hne
  have hs := (h.path.moves m _ hact).2
  have hpass : ∃ pass ∈ passOf (s (m + 1)).main, .write c ∈ pass.todo := by
    have hbuf : ∃ i, (s m).connections.find c = some i ∧ i.writeBuf ≠ [] := by
      obtain ⟨i, hi⟩ := SortedMap.mem_iff_exists.mp (hreading.stays m)
      refine ⟨i, hi, ?_⟩
      have := hne m hm
      rwa [toWrite, hi] at this
    have hvisit : .write c ∈ visits (s m).connections readable writable :=
      write_mem_visits.mpr ⟨hc, hbuf⟩
    obtain ⟨-, hs⟩ := Option.ite_none_right_eq_some.mp hs
    generalize s (m + 1) = t at hs
    split_ifs at hs
    · obtain rfl := Option.some.inj hs
      exact ⟨_, rfl, hvisit⟩
    · obtain rfl := Option.some.inj hs
      exact ⟨_, rfl, hvisit⟩
  obtain ⟨pass, hp, hw⟩ := hpass
  obtain ⟨k, j, todo, closed, hk, hact, hmain⟩ := h.visited hp hw
  have hs := (h.path.moves k _ hact).2
  cases j with
  | none => exact absurd hact (hreading.takes k todo closed hmain)
  | some j =>
    simp only [step, hmain] at hs
    obtain ⟨hpos, hs⟩ := Option.ite_none_right_eq_some.mp hs
    obtain ⟨i, hi, hs⟩ := Option.bind_eq_some_iff.mp hs
    obtain ⟨hle, -⟩ := Option.ite_none_right_eq_some.mp hs
    refine ⟨k, _, by omega, hact, ?_⟩
    have hwritten : written c ((s k).emit (.connWrite (some j))) = i.writeBuf.take j := by
      simp [emit, hmain, hi, Server.written, Event.written]
    rw [hwritten]
    refine List.ne_nil_of_length_pos ?_
    rw [List.length_take]
    omega

/-- What leaves the queue, with what is left, is what was in it and what has been pushed; and what
is written to the connection, with what is to be written, is what was to be written and its part of
what has left the queue. -/
theorem Lasting.balance (h : Lasting write capacity useStdio s act) (hreading : Reading s act c)
    (n k : ℕ) :
    (s n).outgoing ++ pushed (emitted emit s act n k) =
        dispatched (emitted emit s act n k) ++ (s (n + k)).outgoing ∧
      written c (emitted emit s act n k) ++ (s (n + k)).toWrite c =
        (s n).toWrite c ++ responsesFor c (dispatched (emitted emit s act n k)) := by
  obtain ⟨es, hintact⟩ : ∃ es, Intact es (s n) :=
    (h.reachable n).invariant_of_reachable (fun t => ∃ es, Intact es t) ⟨[], intact_init useStdio⟩
      fun _ _ _ _ _ hs ⟨_, hi⟩ => ⟨_, hi.next hs⟩
  have hlater := h.path.logs Intact hintact (fun es s a s' _ hs hi => hi.next hs) k
  constructor
  · have hqueue := hlater.queue
    rw [pushed_append, dispatched_append, hintact.queue, List.append_assoc, List.append_assoc]
      at hqueue
    exact List.append_cancel_left hqueue
  · obtain ⟨i, hi⟩ := SortedMap.mem_iff_exists.mp (hreading.stays n)
    obtain ⟨j, hj⟩ := SortedMap.mem_iff_exists.mp (hreading.stays (n + k))
    have hbefore := hintact.stream c i hi
    have hafter := hlater.stream c j hj
    rw [written_append, dispatched_append, responsesFor_append, ← hbefore, List.append_assoc,
      List.append_assoc] at hafter
    rw [toWrite, toWrite, hi, hj]
    exact List.append_cancel_left hafter

theorem Lasting.flushed (h : Lasting write capacity useStdio s act)
    (hreading : Reading s act c) (n : ℕ) :
    ∃ k, (s n).toWrite c <+: written c (emitted emit s act n k) := by
  by_contra hnone
  have hnever : ∀ k, ¬ (s n).toWrite c <+: written c (emitted emit s act n k) :=
    fun k hk => hnone ⟨k, hk⟩
  have hne : ∀ m, n ≤ m → (s m).toWrite c ≠ [] := by
    intro m hm hnil
    obtain ⟨k, rfl⟩ := Nat.exists_eq_add_of_le hm
    have hmore := (h.balance hreading n k).2
    rw [hnil, List.append_nil] at hmore
    exact hnever k ⟨_, hmore.symm⟩
  -- so more and more is written
  have hgrows : ∀ d, ∃ k, d ≤ (written c (emitted emit s act n k)).length := by
    intro d
    induction d with
    | zero => exact ⟨0, Nat.zero_le _⟩
    | succ d ih =>
      obtain ⟨k, hk⟩ := ih
      obtain ⟨m, a, hm, hact, hwritten⟩ := h.writes hreading (n := n + k) fun m hm =>
        hne m (by omega)
      obtain ⟨j, rfl⟩ := Nat.exists_eq_add_of_le hm
      refine ⟨k + (j + 1), ?_⟩
      rw [emitted_add, emitted, hact, Option.elim_some, written_append, written_append,
        List.length_append,
        List.length_append]
      have := List.length_pos_of_ne_nil hwritten
      omega
  obtain ⟨k, hk⟩ := hgrows ((s n).toWrite c).length
  exact hnever k (List.prefix_of_prefix_length_le (List.prefix_append _ _)
    ⟨_, (h.balance hreading n k).2⟩ hk)

/-! From the queue to the client. -/

theorem Lasting.queue_dispatched (h : Lasting write capacity useStdio s act)
    (hcapacity : 0 < capacity) (hreading : Reading s act c) (n : ℕ) :
    ∃ k, (s n).outgoing <+: dispatched (emitted emit s act n k) := by
  by_cases hne : (s n).outgoing = []
  · exact ⟨0, hne ▸ List.nil_prefix⟩
  · obtain ⟨m, hm, hact, -⟩ := h.dispatched_queued hcapacity hne
    obtain ⟨k, rfl⟩ := Nat.exists_eq_add_of_le hm
    have hall : dispatched ((s (n + k)).emit .dispatchResponses) = (s (n + k)).outgoing :=
      (pushed_dispatched _).2.1
    refine ⟨k + 1, pushed (emitted emit s act n k), ?_⟩
    rw [emitted, hact, Option.elim_some, dispatched_append, hall]
    exact (h.balance hreading n k).1

theorem Lasting.delivered (h : Lasting write capacity useStdio s act) (hcapacity : 0 < capacity)
    (hreading : Reading s act c) (n : ℕ) :
    ∃ k, (s n).toWrite c ++ responsesFor c (s n).outgoing <+:
      written c (emitted emit s act n k) := by
  obtain ⟨j, more, hmore⟩ := h.queue_dispatched hcapacity hreading n
  obtain ⟨k, hk⟩ := h.flushed hreading (n + j)
  have hwritten := (h.balance hreading n j).2
  rw [← hmore, responsesFor_append, ← List.append_assoc] at hwritten
  refine ⟨j + k, ?_⟩
  rw [emitted_add, written_append]
  calc (s n).toWrite c ++ responsesFor c (s n).outgoing
      <+: written c (emitted emit s act n j) ++ (s (n + j)).toWrite c := ⟨_, hwritten.symm⟩
    _ <+: written c (emitted emit s act n j) ++ written c (emitted emit s act (n + j) k) :=
      (List.prefix_append_right_inj _).mpr hk

theorem outgoing_of_handled {s s' : Server} {w : Ptr} {msg : Message} {response : ℤ × Bytes}
    (h : s.step write capacity (.thread (.respond w)) = some s')
    (hhandled : .handled msg response ∈ s.emit (.thread (.respond w))) :
    response = (msg.connectionNum, msg.payload) ∧ s'.outgoing = s.outgoing ++ [response] ∧
      s'.connections = s.connections := by
  have hpushed : pushed (s.emit (.thread (.respond w))) = [response] := by
    unfold emit at hhandled ⊢
    dsimp only at hhandled ⊢
    split at hhandled
    · obtain ⟨rfl, rfl⟩ : msg = _ ∧ response = _ := by simpa using hhandled
      rfl
    · cases hhandled
  obtain ⟨-, -, -, -, hresponse⟩ := handled_emit hhandled
  refine ⟨hresponse, ?_, ?_⟩
  · rw [outgoing_step h (by simp), hpushed]
  · cases moves_of_step h with
    | quiet hq => cases hq
    | respond => rfl

/-- However much else it is asked, a server that goes on for ever writes every response in its queue
to the client that it is for, and the answer to every message that a worker has, if that client
stays and reads: each at its place, behind what is to be written already and the responses before
it. -/
theorem responses_delivered (h : Lasting write capacity useStdio s act) (hcapacity : 0 < capacity)
    (hreading : Reading s act c) :
    (∀ n before response after, (s n).outgoing = before ++ (c, response) :: after →
      ∃ k, (s n).toWrite c ++ responsesFor c before ++ response <+:
        written c (emitted emit s act n k)) ∧
    ∀ n w t msg, (s n).workers.threads.find w = some t → msg ∈ t.unanswered →
      msg.connectionNum = c →
      ∃ m, n ≤ m ∧ act m = some (.thread (.respond w)) ∧
        .handled msg (c, msg.payload) ∈ (s m).emit (.thread (.respond w)) ∧
        ∃ k, (s m).toWrite c ++ responsesFor c (s m).outgoing ++ msg.payload <+:
          written c (emitted emit s act m k) := by
  have hown : ∀ response, responsesFor c [(c, response)] = response := fun response => by
    simp [responsesFor]
  refine ⟨fun n before response after hqueue => ?_, fun n w t msg ht hmsg hc => ?_⟩
  · obtain ⟨k, hk⟩ := h.delivered hcapacity hreading n
    rw [hqueue, ← List.singleton_append, responsesFor_append, responsesFor_append, hown,
      ← List.append_assoc, ← List.append_assoc] at hk
    exact ⟨k, (List.prefix_append _ _).trans hk⟩
  · obtain ⟨m, hm, hact, ⟨response, hhandled⟩, -⟩ := h.handled hcapacity ht hmsg
    obtain ⟨rfl, hqueue, hconnections⟩ := outgoing_of_handled (h.path.moves m _ hact).2 hhandled
    rw [hc] at hhandled hqueue
    obtain ⟨k, hk⟩ := h.delivered hcapacity hreading (m + 1)
    have hbuf : (s (m + 1)).toWrite c = (s m).toWrite c := by rw [toWrite, toWrite, hconnections]
    rw [hbuf, hqueue, responsesFor_append, hown, ← List.append_assoc] at hk
    refine ⟨m, hm, hact, hhandled, 1 + k, ?_⟩
    rw [emitted_add, written_append, emitted, emitted, List.nil_append, Nat.add_zero, hact,
      Option.elim_some, written_emit (by simp), List.nil_append]
    exact hk

/-- The connection is there, and a write to it does not fail. -/
def Attending (s : Server) (a : Act) : Prop :=
  AtEase 4 s a ∧ (s.connections.find 0).isSome = true ∧ a ≠ .connWrite none

instance (s : Server) (a : Act) : Decidable (Attending s a) := inferInstanceAs (Decidable (_ ∧ _))

/-- The answers to a request for a worker and to one for the dispatcher get to the client. -/
theorem responses_delivered_searchAndVersion : ∃ s act, Lasting fastWriter 4 true s act ∧
    Reading s act 0 ∧
    (∃ t, (s 0).workers.threads.find 1 = some t ∧ t.unanswered.map Message.connectionNum = [0]) ∧
    (s 0).outgoing.map Prod.fst = [0] ∧
    (∀ n before response after, (s n).outgoing = before ++ (0, response) :: after →
      ∃ k, (s n).toWrite 0 ++ responsesFor 0 before ++ response <+:
        written 0 (emitted emit s act n k)) ∧
    ∀ n w t msg, (s n).workers.threads.find w = some t → msg ∈ t.unanswered →
      msg.connectionNum = 0 →
      ∃ m, n ≤ m ∧ act m = some (.thread (.respond w)) ∧
        .handled msg (0, msg.payload) ∈ (s m).emit (.thread (.respond w)) ∧
        ∃ k, (s m).toWrite 0 ++ responsesFor 0 (s m).outgoing ++ msg.payload <+:
          written 0 (emitted emit s act m k) := by
  obtain ⟨s₀, hexec, hmessages, hresponses, hrest⟩ :
      ∃ s, exec (step fastWriter 4) free (init true) searchAndVersion = some s ∧
        ((s.workers.threads.find 1).any fun t =>
          decide (t.unanswered.map Message.connectionNum = [0])) = true ∧
        s.outgoing.map Prod.fst = [0] ∧
        ((exec (step fastWriter 4) Attending s untilSettled).any fun s' =>
          decide (Settled s' ∧ (s'.connections.find 0).isSome = true)) = true :=
    exists_of_exec (by decide +kernel)
  obtain ⟨s', hexec', hsettled, hsome⟩ := exists_of_exec hrest
  obtain ⟨s, act, h, rfl, hpath, hend, hguard⟩ :=
    lasting_of_settled (fun _ _ hok => hok.1) ⟨_, run_of_exec hexec⟩
    (run_of_exec hexec') hsettled (by decide)
  have hreading : Reading s act 0 := by
    refine ⟨fun n => ?_, fun n _ _ _ hact => (hpath.moves n _ hact).1.2.2 rfl, fun n hne => ?_⟩
    · refine SortedMap.mem_iff_exists.mpr (Option.isSome_iff_exists.mp ?_)
      rcases hguard n with heq | ⟨a, hok⟩
      · rw [heq]
        exact hsome
      · exact hok.2.1
    · obtain ⟨i, hi⟩ := Option.isSome_iff_exists.mp hsome
      refine absurd ?_ (hne (max n untilSettled.length) (le_max_left ..))
      rw [toWrite, hend _ (le_max_right ..), hi]
      exact hsettled.written 0 i hi
  refine ⟨s, act, h, hreading, ?_, hresponses, responses_delivered h (by decide) hreading⟩
  obtain ⟨t, ht, hone⟩ := (Option.any_eq_true ..).mp hmessages
  exact ⟨t, ht, of_decide_eq_true hone⟩

end Server

end Xaprun
