import Xaprun.Proofs.Blocking
import Xaprun.Proofs.Output
import Xaprun.Proofs.Routing
import Xaprun.Spec.Traffic

/-! The dispatcher in a run of the server. Reads of other connections, signals, workers and writes
come between its calls, and it makes for each connection the calls that the data read from it asks
for, in order. -/

namespace Xaprun

open Frames Runs

theorem conn_of_received (write : Writer) {c : ℤ} {readBuf data : Bytes} :
    ∀ e ∈ (Server.received write c readBuf data).1, e.conn = c := by
  refine List.forall_mem_map.mpr fun call hcall => ?_
  have hfor := dispatchAll_for c _ _ call hcall
  cases call with
  | sendFatalError c' payload => exact hfor
  | routeMessage c' buf pos msglen =>
    obtain rfl : c' = c := hfor
    rcases (routedOnce write c' buf pos msglen).connection with ⟨response, heq⟩ |
      ⟨group, msg, heq, hconn, -⟩
    · rw [Call.effect, heq]
      rfl
    · rw [Call.effect, heq]
      exact hconn

theorem feed_snoc (c : ℤ) (chunk : Bytes) : ∀ (readBuf : Bytes) (chunks : List Bytes),
    feed c readBuf (chunks ++ [chunk]) =
      ((feed c readBuf chunks).1 ++ (readChunk c (feed c readBuf chunks).2 chunk).1,
        (readChunk c (feed c readBuf chunks).2 chunk).2) := by
  intro readBuf chunks
  induction chunks generalizing readBuf with
  | nil => simp [feed]
  | cons x chunks ih => rw [List.cons_append, feed, ih, feed, List.append_assoc]

namespace Server

variable {write : Writer} {capacity : ℕ} {s s' : Server} {a : Act} {ts : List Traffic}

/-- The dispatcher has made the calls that the data read so far asks for, up to those it is about to
make, and left the rest of the data in `read_buf`. -/
def Digested (write : Writer) (ts : List Traffic) (s : Server) : Prop :=
  ∀ c i, s.connections.find c = some i →
    called c ts ++ uncalled c s.main = (feed c [] (reads c ts)).1.map (Call.effect write) ∧
      i.readBuf = (feed c [] (reads c ts)).2

theorem digested_init (useStdio : Bool) : Digested write [] (init useStdio) := by
  intro c i hi
  refine ⟨rfl, ?_⟩
  unfold init startListening at hi
  split_ifs at hi
  · rw [SortedMap.find_insert] at hi
    split_ifs at hi
    · obtain rfl := Option.some.inj hi
      rfl
    · cases hi
  · cases hi

theorem Digested.quiet (h : Digested write ts s) {emitted : List Traffic} (hnone : emitted = [])
    (hfind : ∀ c i', s'.connections.find c = some i' → ∃ i, s.connections.find c = some i ∧
      i'.readBuf = i.readBuf)
    (hmain : ∀ c, uncalled c s'.main = uncalled c s.main) : Digested write (ts ++ emitted) s' := by
  subst hnone
  intro c i' hi'
  obtain ⟨i, hi, hbuf⟩ := hfind c i' hi'
  rw [List.append_nil, hmain, hbuf]
  exact h c i hi

/-- Only a read changes what has been read. -/
theorem readBuf_of_touches {connections : SortedMap ℤ Connection} (h : Touches s a connections)
    (hread : ∀ data, a ≠ .connRead (some data)) {c : ℤ} {i' : Connection}
    (hi' : connections.find c = some i') :
    ∃ i, s.connections.find c = some i ∧ i'.readBuf = i.readBuf := by
  cases h with
  | same => exact ⟨i', hi', rfl⟩
  | dispatched =>
    rw [find_dispatchResponses] at hi'
    obtain ⟨i, hi, rfl⟩ := Option.map_eq_some_iff.mp hi'
    exact ⟨i, hi, rfl⟩
  | read => exact absurd rfl (hread _)
  | @wrote c' n i todo closed hm hi =>
    rw [SortedMap.find_modify] at hi'
    split_ifs at hi'
    · obtain ⟨j, hj, rfl⟩ := Option.map_eq_some_iff.mp hi'
      exact ⟨j, hj, rfl⟩
    · exact ⟨i', hi', rfl⟩
  | closed =>
    rw [find_closeAll] at hi'
    split_ifs at hi'
    exact ⟨i', hi', rfl⟩

theorem reads_append (c : ℤ) (ts ts' : List Traffic) :
    reads c (ts ++ ts') = reads c ts ++ reads c ts' :=
  List.filterMap_append

theorem called_append (c : ℤ) (ts ts' : List Traffic) :
    called c (ts ++ ts') = called c ts ++ called c ts' :=
  List.filterMap_append

/-- The dispatcher makes the next of its calls. -/
theorem Digested.execute (h : Digested write ts s) {e : Effect} {effects : List Effect}
    (hcalls : ∀ c, uncalled c s.main = (e :: effects).filter (·.conn = c))
    (hcalls' : ∀ c, uncalled c s'.main = effects.filter (·.conn = c))
    (hc : s'.connections = s.connections) :
    Digested write (ts ++ [.called e]) s' := by
  intro c i hi
  rw [hc] at hi
  obtain ⟨hcalled, hbuf⟩ := h c i hi
  have hreads : reads c [.called e] = [] := rfl
  rw [reads_append, hreads, List.append_nil, ← hcalled, called_append, List.append_assoc,
    hcalls, hcalls']
  refine ⟨congrArg (called c ts ++ ·) ?_, hbuf⟩
  by_cases hconn : e.conn = c
  · rw [List.filter_cons_of_pos (by simpa using hconn)]
    simp [called, Traffic.effect?, hconn]
  · rw [List.filter_cons_of_neg (by simpa using hconn)]
    simp [called, Traffic.effect?, hconn]

/-- The dispatcher is given what a read has returned. -/
theorem Digested.connRead (h : Digested write ts s) {c : ℤ} {i : Connection} {todo : List Visit}
    {closed : SortedSet ℤ}
    {data : Bytes} (hm : s.main = .conns ⟨.read c :: todo, closed⟩)
    (hi : s.connections.find c = some i) :
    Digested write (ts ++ [.read c data])
      { s with
        connections := s.connections.modify c fun i' =>
          { i' with readBuf := (received write c i.readBuf data).2 }
        main := .dispatching (received write c i.readBuf data).1 ⟨todo, closed⟩ } := by
  intro c' i' hi'
  have hcalled : called c' [.read c data] = [] := rfl
  have hnone : uncalled c' s.main = [] := by rw [hm]; rfl
  rw [called_append, hcalled, List.append_nil, reads_append]
  by_cases hc : c' = c
  · subst hc
    rw [SortedMap.find_modify_self hi] at hi'
    obtain rfl := Option.some.inj hi'
    obtain ⟨hprev, hbuf⟩ := h c' i hi
    have hown : ((received write c' i.readBuf data).1).filter (·.conn = c') =
        (received write c' i.readBuf data).1 :=
      List.filter_eq_self.mpr fun e he => by simpa using conn_of_received write e he
    have hreads : reads c' [.read c' data] = [data] := by simp [reads, Traffic.data?]
    rw [hnone, List.append_nil] at hprev
    rw [hreads, feed_snoc, List.map_append, ← hprev, ← hbuf]
    exact ⟨congrArg (called c' ts ++ ·) hown, rfl⟩
  · rw [SortedMap.find_modify, if_neg hc] at hi'
    have hother : ((received write c i.readBuf data).1).filter (·.conn = c') = [] :=
      List.filter_eq_nil_iff.mpr fun e he => by
        rw [conn_of_received write e he]
        simpa using Ne.symm hc
    have hreads : reads c' [.read c data] = [] := by simp [reads, Traffic.data?, Ne.symm hc]
    obtain ⟨hprev, hbuf⟩ := h c' i' hi'
    rw [hnone] at hprev
    rw [hreads, List.append_nil]
    exact ⟨(congrArg (called c' ts ++ ·) hother).trans hprev, hbuf⟩

theorem traffic_connRead_nil (data : Option Bytes) (h : data.getD [] = []) :
    s.traffic (.connRead data) = [] := by
  rcases data with - | - | ⟨b, bs⟩
  · rfl
  · rfl
  · cases h

theorem uncalled_of_moves (h : Moves write capacity s a s') (hread : ∀ data, a ≠ .connRead data)
    (hcall : ∀ fresh, a ≠ .execute fresh) (c : ℤ) : uncalled c s'.main = uncalled c s.main := by
  cases h with
  | quiet | respond | nudged | shutdown | joined => rfl
  | loop hm | leave hm | interrupted hm | selectNudge hm | selectConns hm | readNudge hm
  | readShutdown hm
  | dispatchResponses hm | connWrite hm | endPass hm | writeNudge hm | endDispatch hm | stop hm
  | join hm =>
    rw [hm]
    rfl
  | reap hm _ hend =>
    rw [hm]
    rcases hend with rfl | rfl
    · rfl
    · rfl
  | connSkip | connRead => exact absurd rfl (hread _)
  | answer | handOver => exact absurd rfl (hcall _)

theorem Digested.step (h : Digested write ts s) (hs : s.step write capacity a = some s') :
    Digested write (ts ++ s.traffic a) s' := by
  have htouches := touches_of_step hs
  have hquiet : (∀ data, a ≠ .connRead (some data)) → s.traffic a = [] →
      (∀ c, uncalled c s'.main = uncalled c s.main) → Digested write (ts ++ s.traffic a) s' :=
    fun hread hnone hmain => h.quiet hnone
      (fun c i' hi' => readBuf_of_touches htouches hread hi') hmain
  cases a with
  | connRead data =>
    simp only [Server.step] at hs
    split at hs
    · rename_i c todo closed hm
      rcases data with - | - | ⟨b, bs⟩
      · obtain rfl := Option.some.inj hs
        exact h.quiet rfl (fun c' i hi => ⟨i, hi, rfl⟩) fun c' => by rw [hm]; rfl
      · obtain rfl := Option.some.inj hs
        exact h.quiet rfl (fun c' i hi => ⟨i, hi, rfl⟩) fun c' => by rw [hm]; rfl
      · obtain ⟨-, hs⟩ := Option.ite_none_right_eq_some.mp hs
        obtain ⟨i, hi, rfl⟩ := Option.map_eq_some_iff.mp hs
        have htraffic : s.traffic (.connRead (some (b :: bs))) = [.read c (b :: bs)] := by
          rw [traffic, hm]
        rw [htraffic]
        exact h.connRead hm hi
    · cases hs
  | execute fresh =>
    have hexec : ∀ {e effects pass}, s.main = .dispatching (e :: effects) pass →
        s.traffic (.execute fresh) = [.called e] :=
      fun hm => by rw [traffic, hm]
    cases moves_of_step hs with
    | answer hm =>
      rw [hexec hm]
      exact h.execute (fun c => by rw [hm]; rfl) (fun c => rfl) rfl
    | handOver hm =>
      rw [hexec hm]
      exact h.execute (fun c => by rw [hm]; rfl) (fun c => rfl) rfl
  | thread | shutdown | loop | interrupted | select | readNudge | dispatchResponses | connWrite
  | endPass | writeNudge
  | endDispatch | stop | join | joined | reap =>
    exact hquiet (by simp) rfl (uncalled_of_moves (moves_of_step hs) (by simp) (by simp))

/-- However reads of the connections, worker threads, signals and writes alternate, and whatever the
bytes are and the pieces in which they come: for every connection that is still there, the calls
that the dispatcher has made for it are the first of those that the data read from it asks for, in
the same order; the others it is about to make; and what no call has been made for is in `read_buf`.
-/
theorem dispatched_as_read {useStdio : Bool} {ok : Server → Act → Prop}
    (h : Logged (step write capacity) ok traffic (init useStdio) ts s) {c : ℤ} {i : Connection}
    (hi : s.connections.find c = some i) :
    called c ts ++ uncalled c s.main = (feed c [] (reads c ts)).1.map (Call.effect write) ∧
      i.readBuf = (feed c [] (reads c ts)).2 :=
  h.invariant (Digested write) (digested_init useStdio) (fun _ _ _ _ _ _ hs hi => hi.step hs) c i hi

/-- Two requests in three pieces, and the calls for the first of them under way. -/
def threePieces : List Act :=
  [.loop, .select [0] [], .connRead (some (text "11 0 Gver")), .endDispatch, .endPass, .loop,
    .select [0] [],
    .connRead (some (text "sion 9 1 Go")), .execute 0, .writeNudge, .endDispatch, .endPass, .loop,
      .select [0] [],
    .readNudge 1, .dispatchResponses, .connRead (some (text "ther 7"))]

theorem dispatched_as_read_threePieces :
    ∃ ts s, trace (step fastWriter 1) free traffic (init true) threePieces = some (ts, s) ∧
      called 0 ts = [.sendResponse 0 (sendMsgResponse (text "0") (byte 'S') version)] ∧
      (∃ i, s.connections.find 0 = some i ∧ i.readBuf = text "7") ∧
      called 0 ts ++ uncalled 0 s.main =
        (feed 0 [] (reads 0 ts)).1.map (Call.effect fastWriter) := by
  have hrun : ∃ ts s, trace (step fastWriter 1) free traffic (init true) threePieces =
    some (ts, s) ∧
      called 0 ts = [.sendResponse 0 (sendMsgResponse (text "0") (byte 'S') version)] ∧
      s.connections.find 0 = some ⟨text "7", text "6 0 S0.1"⟩ :=
    exists_of_trace (by decide +kernel)
  obtain ⟨ts, s, htrace, hcalled, hi⟩ := hrun
  exact ⟨ts, s, htrace, hcalled, ⟨_, hi, rfl⟩, (dispatched_as_read (logged_of_trace htrace) hi).1⟩

end Server

end Xaprun
