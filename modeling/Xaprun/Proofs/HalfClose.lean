import Xaprun.Proofs.Output

/-! When a connection is removed. The main loop takes an end of file for the end of the
connection: whatever is still to be written to it or to be answered, the connection is gone at
the end of the pass. -/

namespace Xaprun.Server

open Frames Runs Outbox

variable {write : Writer} {capacity : ℕ} {s s' : Server} {a : Act} {es : List Event}

theorem mem_dispatchResponses {connections : SortedMap ℤ Connection}
    {outgoing : List (ℤ × Bytes)} {c : ℤ} :
    c ∈ Server.dispatchResponses connections outgoing ↔ c ∈ connections := by
  rw [SortedMap.mem_def, find_dispatchResponses, Option.isSome_map, ← SortedMap.mem_def]

theorem mem_closeAll {connections : SortedMap ℤ Connection} {closed : SortedSet ℤ} {c : ℤ} :
    c ∈ closeAll connections closed ↔ c ∉ closed ∧ c ∈ connections := by
  rw [SortedMap.mem_def, find_closeAll]
  by_cases hc : c ∈ closed
  · simp [hc]
  · simp [hc, ← SortedMap.mem_def]

theorem mem_of_visit {connections : SortedMap ℤ Connection} {readable writable : List ℤ} {c : ℤ}
    (h : .read c ∈ visits connections readable writable) : c ∈ connections := by
  obtain ⟨i, hi, hc⟩ := List.mem_flatMap.mp h
  have hread : c = i.1 := by
    rcases List.mem_append.mp hc with hc | hc
    · split_ifs at hc
      · simpa using hc
      · simp at hc
    · split_ifs at hc
      · simp at hc
      · simp at hc
  rw [hread]
  exact SortedMap.mem_keys_iff.mp (List.mem_map_of_mem hi)

theorem eof_emit (ha : a ≠ .connRead (some [])) (c : ℤ) : .eof c ∉ s.emit a := by
  unfold emit
  split
  · split <;> simp
  · split <;> simp
  · simp
  · split <;> simp
  · exact absurd rfl ha
  · simp

/-- The connections that are there, those whose end has been seen, and the pass between. -/
structure HalfClosed (connections : SortedMap ℤ Connection) (es : List Event) (s : Server) :
    Prop where
  visits : ∀ pass ∈ passOf s.main, ∀ c, .read c ∈ pass.todo → c ∈ s.connections
  closing : ∀ c, Closing s c → .eof c ∈ es ∧ c ∈ s.connections
  present : ∀ c ∈ s.connections, .eof c ∈ es → Closing s c
  absent : ∀ c ∈ connections, c ∉ s.connections → .eof c ∈ es
  nudge : .S ∉ s.nudge
  ended : ended s.main = true → ∀ c, c ∉ s.connections

theorem halfClosed_init (useStdio : Bool) :
    HalfClosed (init useStdio).connections [] (init useStdio) where
  visits := by simp [init, passOf]
  closing := by simp [init, Closing, passOf]
  present := by simp
  absent := fun c hc hn => absurd hc hn
  nudge := by simp [init]
  ended := by simp [init, Server.ended]

theorem HalfClosed.keep {connections : SortedMap ℤ Connection} (h : HalfClosed connections es s)
    {emitted : List Event} (hc : ∀ c, c ∈ s'.connections ↔ c ∈ s.connections)
    (hpass : (passOf s'.main).map Pass.closedConnections =
      (passOf s.main).map Pass.closedConnections)
    (htodo : ∀ pass' ∈ passOf s'.main, ∃ pass ∈ passOf s.main, pass'.todo ⊆ pass.todo)
    (heof : ∀ c, .eof c ∉ emitted) (hnudge : .S ∉ s'.nudge)
    (hended : Server.ended s'.main = true → Server.ended s.main = true ∨ ∀ c, c ∉ s.connections) :
    HalfClosed connections (es ++ emitted) s' := by
  have hclosing : ∀ c, Closing s' c ↔ Closing s c := fun c => by
    have hmap : ∀ s : Server, Closing s c ↔
        ∃ closed ∈ (passOf s.main).map Pass.closedConnections, c ∈ closed :=
      fun s => by simp [Closing]
    rw [hmap, hmap, hpass]
  have hsame : ∀ c, .eof c ∈ es ++ emitted ↔ .eof c ∈ es := fun c => by simp [heof c]
  refine ⟨fun pass' hp' c hv => ?_, fun c hcl => ?_, fun c hmem he => ?_,
    fun c hmem hn => ?_, hnudge,
    fun he c hmem => ?_⟩
  · obtain ⟨pass, hp, hsub⟩ := htodo pass' hp'
    exact (hc c).mpr (h.visits pass hp c (hsub hv))
  · obtain ⟨he, hmem⟩ := h.closing c ((hclosing c).mp hcl)
    exact ⟨(hsame c).mpr he, (hc c).mpr hmem⟩
  · exact (hclosing c).mpr (h.present c ((hc c).mp hmem) ((hsame c).mp he))
  · exact (hsame c).mpr (h.absent c hmem fun hmem' => hn ((hc c).mpr hmem'))
  · rcases hended he with hold | hnone
    · exact h.ended hold c ((hc c).mp hmem)
    · exact hnone c ((hc c).mp hmem)

theorem HalfClosed.aside {connections : SortedMap ℤ Connection} (h : HalfClosed connections es s)
    {emitted : List Event} (hc : s'.connections = s.connections)
    (hpass : passOf s'.main = passOf s.main)
    (heof : ∀ c, .eof c ∉ emitted) (hnudge : .S ∉ s'.nudge)
    (hended : Server.ended s'.main = true → Server.ended s.main = true ∨ ∀ c, c ∉ s.connections) :
    HalfClosed connections (es ++ emitted) s' :=
  h.keep (fun c => by rw [hc]) (by rw [hpass])
    (fun pass' hp' => ⟨pass', hpass ▸ hp', fun _ hv => hv⟩) heof hnudge
    hended

theorem HalfClosed.select {connections : SortedMap ℤ Connection} (h : HalfClosed connections es s)
    {readable writable : List ℤ}
    (hs : s.step write capacity (.select readable writable) = some s') :
    HalfClosed connections (es ++ s.emit (.select readable writable)) s' := by
  obtain ⟨hm, hs⟩ := Option.ite_none_right_eq_some.mp hs
  have hout : ∀ c, ¬ Closing s c := by simp [Closing, hm, passOf]
  -- the pass begins with no connection closed
  have hbegin : ∀ main, passOf main = some ⟨Server.visits s.connections readable writable, .empty⟩ →
      Server.ended main = false → HalfClosed connections (es ++ []) { s with main } := by
    intro main hp he
    rw [List.append_nil]
    refine ⟨fun pass hpass c hv => ?_, fun c hcl => ?_, fun c hmem heof =>
      absurd (h.present c hmem heof) (hout c),
      h.absent, h.nudge, fun hend => by simp [he] at hend⟩
    · obtain rfl := Option.some.inj (hp.symm.trans hpass)
      exact mem_of_visit hv
    · obtain ⟨pass, hpass, hc⟩ := hcl
      obtain rfl := Option.some.inj (hp.symm.trans hpass)
      simp at hc
  split_ifs at hs with hn
  · obtain rfl := Option.some.inj hs
    exact hbegin _ rfl rfl
  · obtain rfl := Option.some.inj hs
    exact hbegin _ rfl rfl

/-- The end of a connection is seen. -/
theorem HalfClosed.eof {connections : SortedMap ℤ Connection}
    (h : HalfClosed connections es s) {c : ℤ}
    {todo : List Visit} {closed : SortedSet ℤ} (hm : s.main = .conns ⟨.read c :: todo, closed⟩) :
    HalfClosed connections (es ++ [.eof c]) { s with
      main := .conns ⟨todo, closed.insert c ()⟩ } := by
  have hc : c ∈ s.connections :=
    h.visits ⟨.read c :: todo, closed⟩ (by rw [hm]; rfl) c (List.mem_cons_self ..)
  have hclosing : ∀ c', Closing s c' ↔ c' ∈ closed := by simp [Closing, hm, passOf]
  have hclosing' : ∀ c', Closing { s with main := .conns ⟨todo, closed.insert c ()⟩ } c' ↔
      c' = c ∨ c' ∈ closed := by
    simp [Closing, passOf]
  refine ⟨fun pass hpass c' hv => ?_, fun c' hcl => ?_, fun c' hmem he => ?_,
    fun c' hmem hn => ?_, h.nudge,
    by simp [Server.ended]⟩
  · obtain rfl := Option.some.inj hpass
    exact h.visits ⟨.read c :: todo, closed⟩ (by rw [hm]; rfl) c' (List.mem_cons_of_mem _ hv)
  · rcases (hclosing' c').mp hcl with rfl | hcl
    · exact ⟨by simp, hc⟩
    · obtain ⟨he, hmem⟩ := h.closing c' ((hclosing c').mpr hcl)
      exact ⟨by simp [he], hmem⟩
  · apply (hclosing' c').mpr
    rcases List.mem_append.mp he with he | he
    · exact .inr ((hclosing c').mp (h.present c' hmem he))
    · exact .inl (by simpa using he)
  · simp [h.absent c' hmem hn]

theorem HalfClosed.connRead {connections : SortedMap ℤ Connection} (h : HalfClosed connections es s)
    {data : Option Bytes} (hs : s.step write capacity (.connRead data) = some s') :
    HalfClosed connections (es ++ s.emit (.connRead data)) s' := by
  simp only [Server.step] at hs
  split at hs
  · rename_i c todo closed hm
    cases data with
    | none =>
      obtain rfl := Option.some.inj hs
      refine h.keep (fun _ => Iff.rfl) (by simp [passOf, hm]) (fun pass' hp' => ?_)
        (eof_emit (by simp)) h.nudge (by simp [Server.ended])
      obtain rfl := Option.some.inj hp'
      exact ⟨_, by rw [hm]; rfl, List.subset_cons_self _ _⟩
    | some data =>
      cases data with
      | nil =>
        obtain rfl := Option.some.inj hs
        have hemit : s.emit (.connRead (some [])) = [.eof c] := by simp [emit, hm]
        rw [hemit]
        exact h.eof hm
      | cons b bs =>
        obtain ⟨-, hs⟩ := Option.ite_none_right_eq_some.mp hs
        obtain ⟨i, -, rfl⟩ := Option.map_eq_some_iff.mp hs
        refine h.keep (fun _ => SortedMap.mem_modify) (by simp [passOf, hm]) (fun pass' hp' => ?_)
          (eof_emit (by simp)) h.nudge (by simp [Server.ended])
        obtain rfl := Option.some.inj hp'
        exact ⟨_, by rw [hm]; rfl, List.subset_cons_self _ _⟩
  · cases hs

theorem HalfClosed.connWrite {connections : SortedMap ℤ Connection}
    (h : HalfClosed connections es s)
    {n : ℕ} (hs : s.step write capacity (.connWrite (some n)) = some s') :
    HalfClosed connections (es ++ s.emit (.connWrite (some n))) s' := by
  have heof := eof_emit (s := s) (a := .connWrite (some n)) (by simp)
  simp only [Server.step] at hs
  split at hs
  · rename_i c todo closed hm
    obtain ⟨-, hs⟩ := Option.ite_none_right_eq_some.mp hs
    obtain ⟨i, -, hs⟩ := Option.bind_eq_some_iff.mp hs
    obtain ⟨-, hs⟩ := Option.ite_none_right_eq_some.mp hs
    obtain rfl := Option.some.inj hs
    refine h.keep (fun _ => SortedMap.mem_modify) (by simp [passOf, hm])
      (fun pass' hp' => ?_) heof h.nudge
      (by simp [Server.ended])
    obtain rfl := Option.some.inj hp'
    exact ⟨_, by rw [hm]; rfl, List.subset_cons_self _ _⟩
  · cases hs

/-- At the end of the pass the connections whose end has been seen are removed. -/
theorem HalfClosed.endPass {connections : SortedMap ℤ Connection} (h : HalfClosed connections es s)
    (hs : s.step write capacity .endPass = some s') :
    HalfClosed connections (es ++ s.emit .endPass) s' := by
  simp only [Server.step] at hs
  split at hs
  · rename_i closed hm
    obtain rfl := Option.some.inj hs
    have hclosing : ∀ c, Closing s c ↔ c ∈ closed := by simp [Closing, hm, passOf]
    have hemit : s.emit .endPass = [] := rfl
    rw [hemit, List.append_nil]
    refine ⟨by simp [passOf], by simp [Closing, passOf], fun c hmem he => ?_,
      fun c hmem hn => ?_, h.nudge,
      by simp [Server.ended]⟩
    · obtain ⟨hopen, hmem⟩ := mem_closeAll.mp hmem
      exact absurd ((hclosing c).mp (h.present c hmem he)) hopen
    · by_cases hc : c ∈ closed
      · exact (h.closing c ((hclosing c).mpr hc)).1
      · exact h.absent c hmem fun hmem' => hn (mem_closeAll.mpr ⟨hc, hmem'⟩)
  · cases hs

theorem HalfClosed.step {connections : SortedMap ℤ Connection} (h : HalfClosed connections es s)
    (hok : Steady s a) (hs : s.step write capacity a = some s') :
    HalfClosed connections (es ++ s.emit a) s' := by
  cases a with
  | select readable writable => exact h.select hs
  | connRead data => exact h.connRead hs
  | connWrite written =>
    cases written with
    | none => exact absurd hok (by simp [Steady])
    | some n => exact h.connWrite hs
  | endPass => exact h.endPass hs
  | shutdown => exact absurd hok (by simp [Steady])
  | readNudge n =>
    cases moves_of_step hs with
    | readNudge hm _ _ =>
      exact h.aside rfl (by rw [hm]; rfl) (eof_emit (by simp))
        (fun hS => h.nudge (List.mem_of_mem_drop hS))
        (by simp [Server.ended])
    | readShutdown _ _ hS => exact absurd (List.mem_of_mem_take hS) h.nudge
  | dispatchResponses =>
    cases moves_of_step hs with
    | dispatchResponses hm =>
      exact h.keep (fun _ => mem_dispatchResponses) (by rw [hm]; rfl)
        (fun pass' hp' => ⟨pass', by rw [hm]; exact hp', fun _ hv => hv⟩)
          (eof_emit (by simp)) h.nudge
        (by simp [Server.ended])
  | thread b =>
    have heof := eof_emit (s := s) (a := .thread b) (by simp)
    cases moves_of_step hs with
    | quiet | respond => exact h.aside rfl rfl heof h.nudge .inl
    | nudged => exact h.aside rfl rfl heof (by simpa using h.nudge) .inl
  | loop =>
    have heof := eof_emit (s := s) (a := .loop) (by simp)
    cases moves_of_step hs with
    | loop hm => exact h.aside rfl (by rw [hm]; rfl) heof h.nudge (by simp [Server.ended])
    | leave hm hnone =>
      exact h.aside rfl (by rw [hm]; rfl) heof h.nudge fun _ =>
        .inr (SortedMap.toList_eq_nil_iff.mp hnone)
  | interrupted =>
    cases moves_of_step hs with
    | interrupted hm =>
      exact h.aside rfl (by rw [hm]; rfl) (eof_emit (by simp)) h.nudge (by simp [Server.ended])
  | execute fresh =>
    have heof := eof_emit (s := s) (a := .execute fresh) (by simp)
    cases moves_of_step hs with
    | answer hm | handOver hm =>
      exact h.aside rfl (by rw [hm]; rfl) heof h.nudge (by simp [Server.ended])
  | writeNudge =>
    cases moves_of_step hs with
    | writeNudge hm =>
      exact h.aside rfl (by rw [hm]; rfl) (eof_emit (by simp)) (by simpa using h.nudge)
        (by simp [Server.ended])
  | endDispatch =>
    cases moves_of_step hs with
    | endDispatch hm =>
      exact h.aside rfl (by rw [hm]; rfl) (eof_emit (by simp)) h.nudge (by simp [Server.ended])
  | stop =>
    cases moves_of_step hs with
    | stop hm =>
      exact h.aside rfl (by rw [hm]; rfl) (eof_emit (by simp)) h.nudge fun _ =>
        .inl (by rw [hm]; rfl)
  | join =>
    cases moves_of_step hs with
    | join hm =>
      exact h.aside rfl (by rw [hm]; rfl) (eof_emit (by simp)) h.nudge fun _ =>
        .inl (by rw [hm]; rfl)
  | joined =>
    cases moves_of_step hs with
    | joined hm => exact h.aside rfl rfl (eof_emit (by simp)) h.nudge .inl
  | reap =>
    cases moves_of_step hs with
    | reap hm _ hmain =>
      refine h.aside rfl ?_ (eof_emit (by simp)) h.nudge fun _ => .inl (by rw [hm]; rfl)
      rw [hm]
      rcases hmain with rfl | rfl <;> rfl

/-- As long as no write fails and no shutdown is requested, a connection is gone exactly when
its end has been read in a pass that is over, whatever was left to be written or answered; and
the main loop returns only when the end of every connection has been read. -/
theorem half_close_removes {useStdio : Bool}
    (h : Logged (step write capacity) Steady emit (init useStdio) es s) :
    (∀ c, c ∈ (init useStdio).connections → (c ∉ s.connections ↔ .eof c ∈ es ∧ ¬ Closing s c)) ∧
    (ended s.main = true → ∀ c, c ∈ (init useStdio).connections → .eof c ∈ es) := by
  have hi : HalfClosed (init useStdio).connections es s :=
    h.invariant (HalfClosed (init useStdio).connections) (halfClosed_init useStdio)
      fun es s a s' _ hok hs hi => hi.step hok hs
  refine ⟨fun c hc => ⟨fun hn => ⟨hi.absent c hc hn, fun hcl => hn (hi.closing c hcl).2⟩, ?_⟩, ?_⟩
  · rintro ⟨he, hcl⟩ hmem
    exact hcl (hi.present c hmem he)
  · exact fun hend c hc => hi.absent c hc (hi.ended hend c)

/-- A client that asks for the version and closes its end: the answer is in the buffer when the
end is read. -/
def askAndClose : List Act :=
  [.loop, .select [0] [], .connRead (some (text "11 0 Gversion ")), .execute 0, .writeNudge,
    .endDispatch,
    .endPass, .loop, .select [0] [], .readNudge 1, .dispatchResponses, .connRead (some [])]

theorem half_close_removes_askAndClose :
    ∃ es s, Logged (step fastWriter 4) Steady emit (init true) es s ∧ ended s.main = true ∧
      .eof 0 ∈ es ∧
      0 ∉ s.connections := by
  have hrun : ∃ es s, trace (step fastWriter 4) Steady emit (init true)
    (askAndClose ++ [.endPass, .loop]) =
      some (es, s) ∧ ended s.main = true ∧ Closing s 0 = Closing (init true) 0 :=
        ⟨_, _, rfl, rfl, rfl⟩
  obtain ⟨es, s, htrace, hend, hcl⟩ := hrun
  have hlog := logged_of_trace htrace
  have hmem : 0 ∈ (init true).connections := by decide
  have hout : ¬ Closing s 0 := by
    rw [hcl]
    simp [Closing, init, passOf]
  obtain ⟨hgone, heof⟩ := half_close_removes hlog
  exact ⟨es, s, hlog, hend, heof hend 0 hmem, (hgone 0 hmem).mpr ⟨heof hend 0 hmem, hout⟩⟩

/-- The connection is removed with the answer still in its buffer. -/
theorem half_close_loses :
    ¬ ∀ s a s', Reachable (step fastWriter 4) Steady (init true) s → Steady s a →
      step fastWriter 4 s a = some s' → ∀ c, c ∈ s.connections → c ∉ s'.connections →
        Drained s c := by
  intro h
  have hrun : ∃ s s', exec (step fastWriter 4) Steady (init true) askAndClose = some s ∧
      step fastWriter 4 s .endPass = some s' ∧ s.connections.find 0 = some ⟨[], text "6 0 S0.1"⟩ ∧
      s'.connections.find 0 = none := ⟨_, _, rfl, rfl, by decide, rfl⟩
  obtain ⟨s, s', hexec, hs, hfind, hnone⟩ := hrun
  have hdrained := h s .endPass s' (reachable_of_exec hexec) trivial hs 0
    (SortedMap.mem_of_find hfind)
    (SortedMap.not_mem_iff.mpr hnone)
  have hbuf := hdrained.written _ hfind
  exact absurd hbuf (by decide)

end Xaprun.Server
