import Xaprun.Sanity.Connections
import Xaprun.Spec.Responses

/-! What is written to a connection. Every response goes from the queue to the end of the
`write_buf` of its connection, and `write` takes bytes off the front, so that what has been
written and what is left always make up the responses that have left the queue. -/

namespace Xaprun.Server

open Frames Runs

variable {write : Writer} {capacity : ℕ} {s s' : Server} {a : Act} {es : List Event}

/-! `io_write_some` and the assertion after it. -/

theorem ioWriteSome_wrote {len : ℕ} {results : List WriteResult} {written : ℤ}
    (h : ioWriteSome len results = some written) (hpos : 0 < written) :
    ∃ n : ℕ, written = n ∧ .wrote n ∈ results := by
  induction results with
  | nil =>
    unfold ioWriteSome at h
    split_ifs at h
    obtain rfl := Option.some.inj h
    exact absurd hpos (lt_irrefl 0)
  | cons result results ih =>
    unfold ioWriteSome at h
    split_ifs at h
    · obtain rfl := Option.some.inj h
      exact absurd hpos (lt_irrefl 0)
    · cases result with
      | interrupted =>
        obtain ⟨n, hn, hmem⟩ := ih h
        exact ⟨n, hn, List.mem_cons_of_mem _ hmem⟩
      | failed =>
        obtain rfl : -1 = written := Option.some.inj h
        omega
      | wrote c => exact ⟨c, (Option.some.inj h).symm, List.mem_cons_self ..⟩

theorem assertion_holds {results : List WriteResult} (h : Bounded s (.write results)) :
    ¬ AssertionFails s results := by
  rintro ⟨c, todo, closed, i, written, hm, hi, hw, hpos, hgt⟩
  obtain ⟨n, rfl, hmem⟩ := ioWriteSome_wrote hw hpos
  have htarget : i ∈ s.writeTarget := by simpa [writeTarget, hm] using hi
  have hle : n ≤ i.writeBuf.length := h i htarget (.wrote n) hmem
  exact hgt (by exact_mod_cast hle)

/-! The buffers. -/

theorem responsesFor_append (c : ℤ) (rs rs' : List (ℤ × Bytes)) :
    responsesFor c (rs ++ rs') = responsesFor c rs ++ responsesFor c rs' := by
  simp [responsesFor]

theorem find_dispatchResponses (connections : SortedMap ℤ Connection)
    (outgoing : List (ℤ × Bytes)) (c : ℤ) :
    (Server.dispatchResponses connections outgoing).find c =
      (connections.find c).map fun i =>
      { i with writeBuf := i.writeBuf ++ responsesFor c outgoing } := by
  induction outgoing generalizing connections with
  | nil => simp [Server.dispatchResponses, responsesFor]
  | cons m ms ih =>
    have hcons : Server.dispatchResponses connections (m :: ms) =
        Server.dispatchResponses
          (connections.modify m.1 fun i => { i with writeBuf := i.writeBuf ++ m.2 }) ms := rfl
    rw [hcons, ih, SortedMap.find_modify]
    by_cases hc : c = m.1
    · subst hc
      simp [responsesFor, Function.comp_def]
    · have hne : m.1 ≠ c := fun he => hc he.symm
      simp [responsesFor, hc, hne]

theorem dispatchResponses_absent (connections : SortedMap ℤ Connection)
    (outgoing : List (ℤ × Bytes)) :
    Server.dispatchResponses connections (outgoing.filter (·.1 ∈ connections)) =
      Server.dispatchResponses connections outgoing := by
  ext1 c
  rw [find_dispatchResponses, find_dispatchResponses]
  cases hc : connections.find c with
  | none => rfl
  | some i =>
    have hmem := SortedMap.mem_of_find hc
    have hsame : responsesFor c (outgoing.filter (·.1 ∈ connections)) =
        responsesFor c outgoing := by
      unfold responsesFor
      rw [List.filter_filter]
      congr 2
      apply List.filter_congr
      intro m _
      by_cases he : m.1 = c
      · simp [he, hmem]
      · simp [he]
    rw [hsame]

theorem find_closeAll (connections : SortedMap ℤ Connection) (closed : SortedSet ℤ) (c : ℤ) :
    (closeAll connections closed).find c = if c ∈ closed then none else connections.find c := by
  have hfold : ∀ (js : List (ℤ × Unit)) (connections : SortedMap ℤ Connection),
      (js.foldl (fun connections j => connections.erase j.1) connections).find c =
        if c ∈ js.map Prod.fst then none else connections.find c := by
    intro js
    induction js with
    | nil => simp
    | cons j js ih =>
      intro connections
      rw [List.foldl_cons, ih, SortedMap.find_erase, List.map_cons]
      by_cases hj : c = j.1
      · simp [hj]
      · simp [hj]
  unfold closeAll
  rw [hfold]
  simp only [SortedMap.mem_keys_iff]

/-! The events. -/

theorem pushed_append (es es' : List Event) : pushed (es ++ es') = pushed es ++ pushed es' := by
  simp [pushed]

theorem dispatched_append (es es' : List Event) :
    dispatched (es ++ es') = dispatched es ++ dispatched es' := by
  simp [dispatched]

theorem written_append (c : ℤ) (es es' : List Event) :
    written c (es ++ es') = written c es ++ written c es' := by
  simp [written]

theorem dispatched_emit (ha : a ≠ .dispatchResponses) : dispatched (s.emit a) = [] := by
  unfold emit
  split
  · split <;> rfl
  · split <;> rfl
  · exact absurd rfl ha
  · split <;> rfl
  · split <;> rfl
  · rfl

theorem pushed_dispatched (rs : List (ℤ × Bytes)) :
    pushed (rs.map Event.dispatched) = [] ∧ dispatched (rs.map Event.dispatched) = rs ∧
      ∀ c, written c (rs.map Event.dispatched) = [] := by
  refine ⟨?_, ?_, fun c => ?_⟩
  · simp [pushed, Event.pushed?]
  · rw [dispatched, List.filterMap_map]
    exact List.filterMap_some
  · rw [written, List.flatMap_map]
    exact List.flatMap_eq_nil_iff.mpr fun _ _ => rfl

theorem written_emit (ha : ∀ n, a ≠ .connWrite (some n)) (c : ℤ) : written c (s.emit a) = [] := by
  unfold emit
  split
  · split <;> rfl
  · split <;> rfl
  · exact (pushed_dispatched _).2.2 c
  · exact absurd rfl (ha _)
  · split <;> rfl
  · rfl

/-- What has been pushed has left the queue in that order or is in it; and what has been written
to a connection, with what is to be written, is what has left the queue for it. -/
structure Intact (es : List Event) (s : Server) : Prop where
  queue : pushed es = dispatched es ++ s.outgoing
  stream : ∀ c i, s.connections.find c = some i →
    written c es ++ i.writeBuf = responsesFor c (dispatched es)

theorem intact_init (useStdio : Bool) : Intact [] (init useStdio) := by
  refine ⟨rfl, fun c i hi => ?_⟩
  have hbuf : i.writeBuf = [] := by
    unfold init startListening at hi
    split_ifs at hi
    · rw [SortedMap.find_insert_new rfl] at hi
      split_ifs at hi
      · rw [← Option.some.inj hi]
      · simp at hi
    · simp at hi
  rw [hbuf]
  rfl

theorem Intact.quiet (h : Intact es s) {emitted : List Event}
    (hp : s'.outgoing = s.outgoing ++ pushed emitted) (hd : dispatched emitted = [])
    (hw : ∀ c, written c emitted = [])
    (hc : ∀ c i', s'.connections.find c = some i' →
      ∃ i, s.connections.find c = some i ∧ i'.writeBuf = i.writeBuf) :
    Intact (es ++ emitted) s' where
  queue := by rw [pushed_append, dispatched_append, hd, hp, h.queue]; simp
  stream := fun c i' hi' => by
    obtain ⟨i, hi, hbuf⟩ := hc c i' hi'
    rw [written_append, dispatched_append, hd, hw, hbuf]
    simpa using h.stream c i hi

theorem Intact.step (h : Intact es s) (hs : s.step write capacity a = some s')
    (ha : ∀ n, a ≠ .connWrite n) : Intact (es ++ s.emit a) s' := by
  have hw : ∀ c, written c (s.emit a) = [] := written_emit fun n => ha (some n)
  have ht := touches_of_step hs
  generalize hconns : s'.connections = connections at ht
  cases ht with
  | same hd =>
    exact h.quiet (outgoing_step hs hd) (dispatched_emit hd) hw
      fun c i' hi' => ⟨i', hconns ▸ hi', rfl⟩
  | @dispatched pass hm =>
    have hemit : s.emit .dispatchResponses = s.outgoing.map .dispatched := rfl
    obtain ⟨hp, hd, -⟩ := pushed_dispatched s.outgoing
    have hout : s'.outgoing = [] := by
      simp only [Server.step, hm] at hs
      rw [← Option.some.inj hs]
    refine ⟨?_, fun c i' hi' => ?_⟩
    · rw [pushed_append, dispatched_append, hemit, hp, hd, hout, h.queue]
    · rw [hconns, find_dispatchResponses] at hi'
      obtain ⟨i, hi, rfl⟩ := Option.map_eq_some_iff.mp hi'
      rw [written_append, hw, List.append_nil, dispatched_append, hemit, hd, responsesFor_append,
        ← h.stream c i hi, List.append_assoc]
  | read =>
    apply h.quiet (outgoing_step hs (by simp)) (dispatched_emit (by simp)) hw
    intro c i' hi'
    rw [hconns, SortedMap.find_modify] at hi'
    split_ifs at hi'
    · obtain ⟨i, hi, rfl⟩ := Option.map_eq_some_iff.mp hi'
      exact ⟨i, hi, rfl⟩
    · exact ⟨i', hi', rfl⟩
  | wrote => exact absurd rfl (ha _)
  | closed hm =>
    apply h.quiet (outgoing_step hs (by simp)) (dispatched_emit (by simp)) hw
    intro c i' hi'
    rw [hconns, find_closeAll] at hi'
    split_ifs at hi'
    exact ⟨i', hi', rfl⟩

theorem Intact.wrote {results : List WriteResult} (h : Intact es s)
    (hs : writeStep write capacity s (.write results) = some s') :
    Intact (es ++ s.writeEmit (.write results)) s' := by
  simp only [writeStep] at hs
  split at hs
  · rename_i c todo closed hm
    obtain ⟨i, hi, hs⟩ := Option.bind_eq_some_iff.mp hs
    obtain ⟨written, hw, hs⟩ := Option.bind_eq_some_iff.mp hs
    have hemit : s.writeEmit (.write results) = [.wrote c (i.writeBuf.take written.toNat)] := by
      simp only [writeEmit, hm, hi, hw, Option.getD_some]
    rw [hemit]
    unfold connWritten at hs
    split_ifs at hs with hneg hle
    · obtain rfl := Option.some.inj hs
      have hnone : i.writeBuf.take written.toNat = [] := by simp [Int.toNat_of_nonpos hneg]
      refine h.quiet (by simp [pushed, Event.pushed?]) rfl (fun c' => ?_)
        fun c' i' hi' => ⟨i', hi', rfl⟩
      simp [Server.written, Event.written, hnone]
    · obtain rfl := Option.some.inj hs
      have hp : pushed [.wrote c (i.writeBuf.take written.toNat)] = [] := rfl
      have hd : dispatched [.wrote c (i.writeBuf.take written.toNat)] = [] := rfl
      refine ⟨?_, fun c' i' hi' => ?_⟩
      · rw [pushed_append, dispatched_append, hp, hd, List.append_nil, List.append_nil, h.queue]
      · rw [written_append, dispatched_append, hd, List.append_nil]
        by_cases hc : c' = c
        · subst hc
          rw [SortedMap.find_modify_self hi] at hi'
          rw [← Option.some.inj hi', ← h.stream c' i hi]
          simp [Server.written, Event.written]
        · rw [SortedMap.find_modify, if_neg hc] at hi'
          have hne : c ≠ c' := fun he => hc he.symm
          simpa [Server.written, Event.written, hne] using h.stream c' i' hi'
  · cases hs

theorem writeStep_step (h : writeStep write capacity s (.step a) = some s') :
    s.step write capacity a = some s' ∧ ∀ n, a ≠ .connWrite n := by
  cases a with
  | connWrite n => cases h
  | thread | shutdown | loop | interrupted | select | readNudge | dispatchResponses | connRead
  | endPass
  | execute | writeNudge | endDispatch | stop | join | joined | reap => exact ⟨h, by simp⟩

theorem intact_of_logged {useStdio : Bool} {ok : Server → WriteAct → Prop}
    (h : Logged (writeStep write capacity) ok writeEmit (init useStdio) es s) : Intact es s := by
  apply h.invariant Intact (intact_init useStdio)
  intro es s a s' _ _ hs hi
  cases a with
  | step a =>
    obtain ⟨hs, ha⟩ := writeStep_step hs
    exact hi.step hs ha
  | write results => exact hi.wrote hs

/-- In every state of every run, and with every sequence of short and interrupted writes: the
responses leave the queue in the order they were pushed; what has been written to a connection
that is still there, followed by its `write_buf`, is exactly the responses for it that have left
the queue; those for absent connections change nothing; and the assertion on the number of bytes
written holds. -/
theorem output_intact {useStdio : Bool} {es : List Event} {s : Server}
    (h : Logged (writeStep write capacity) Bounded writeEmit (init useStdio) es s) :
    pushed es = dispatched es ++ s.outgoing ∧
    (∀ c i, s.connections.find c = some i →
      written c es ++ i.writeBuf = responsesFor c (dispatched es)) ∧
    Server.dispatchResponses s.connections (s.outgoing.filter (·.1 ∈ s.connections)) =
      Server.dispatchResponses s.connections s.outgoing ∧
    ∀ results, Bounded s (.write results) → ¬ AssertionFails s results := by
  have hi := intact_of_logged h
  exact ⟨hi.queue, hi.stream, dispatchResponses_absent _ _, fun results hb => assertion_holds hb⟩

/-- Two answers of the dispatcher, of which the first goes out in two writes with an interrupted
call before the second of them. -/
def twoAnswersInThree : List WriteAct :=
  [.step .loop, .step (.select [0] []),
    .step (.connRead (some (text "11 0 Gversion 11 1 Gversion "))),
    .step (.execute 0), .step .writeNudge, .step (.execute 0), .step .writeNudge,
      .step .endDispatch,
    .step .endPass, .step .loop, .step (.select [] []), .step (.readNudge 2),
      .step .dispatchResponses,
    .step .endPass, .step .loop, .step (.select [] [0]), .write [.wrote 5], .step .endPass,
      .step .loop,
    .step (.select [] [0]), .write [.interrupted, .wrote 9]]

theorem output_intact_twoAnswersInThree :
    ∃ es s, Logged (writeStep fastWriter 4) Bounded writeEmit (init true) es s ∧
      written 0 es = text "6 0 S0.16 1 S0" ∧
      ∀ c i, s.connections.find c = some i →
        written c es ++ i.writeBuf = responsesFor c (dispatched es) := by
  have hrun : ∃ es s, trace (writeStep fastWriter 4) Bounded writeEmit
    (init true) twoAnswersInThree =
      some (es, s) ∧ written 0 es = text "6 0 S0.16 1 S0" := ⟨_, _, rfl, by decide⟩
  obtain ⟨es, s, htrace, hw⟩ := hrun
  have hlog := logged_of_trace htrace
  exact ⟨es, s, hlog, hw, (output_intact hlog).2.1⟩

end Xaprun.Server
