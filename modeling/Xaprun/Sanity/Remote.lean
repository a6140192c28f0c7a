import Xaprun.Proofs.Blocking
import Xaprun.Proofs.HalfClose
import Xaprun.Spec.Remote

/-! The server of a single connection whose requests the dispatcher answers: what a step does to
the bytes on their way through it. -/

namespace Xaprun

open Frames Runs

def Effect.response? : Effect → Option (ℤ × Bytes)
  | .sendResponse connectionNum response => some (connectionNum, response)
  | .sendToWorker .. => none

namespace Server

variable {write : Writer} {capacity : ℕ} {s s' : Server} {a : Act}

def toSend (c : ℤ) (effects : List Effect) :
    Bytes := responsesFor c (effects.filterMap Effect.response?)

/-- The bytes on their way to the connection: in its `write_buf`, in the queue, and with the
dispatcher. -/
def outward (s : Server) (c : ℤ) : Bytes :=
  (s.connections.find c).elim [] Connection.writeBuf ++
    (responsesFor c s.outgoing ++ toSend c (pending s.main))

/-- Connection 0 is there and not about to be closed, there is no other and no worker. -/
structure Alone (s : Server) : Prop where
  conn : ∃ i, s.connections.find 0 = some i
  visits : ∀ pass ∈ passOf s.main, ∀ v ∈ pass.todo, v = .read 0 ∨ v = .write 0
  only : ∀ c ∈ s.connections, c = 0
  opened : ∀ pass ∈ passOf s.main, (0 : ℤ) ∉ pass.closedConnections
  threads : ∀ w, s.workers.threads.find w = none
  effects : ∀ e ∈ pending s.main, ∃ response, e = .sendResponse 0 response

/-- What a step does to the bytes of connection 0. -/
inductive Carries (write : Writer) (i : Connection) (out : Bytes) : Act → Connection → Bytes → Prop
  | read {data : Bytes} {i' : Connection} : data ≠ [] →
      i'.readBuf = (received write 0 i.readBuf data).2 →
      Carries write i out (.connRead (some data)) i'
        (out ++ toSend 0 (received write 0 i.readBuf data).1)
  | wrote {n : ℕ} {i' : Connection} {out' : Bytes} : i'.readBuf = i.readBuf →
      out = i.writeBuf.take n ++ out' →
      Carries write i out (.connWrite (some n)) i' out'
  | quiet {a : Act} {i' : Connection} : (∀ data, a ≠ .connRead (some data)) →
      (∀ n, a ≠ .connWrite (some n)) →
      i'.readBuf = i.readBuf → Carries write i out a i' out

theorem alone_init : Alone (init true) where
  conn := ⟨⟨[], []⟩, rfl⟩
  visits := by simp [init, passOf]
  only := by
    intro c hc
    rw [init, startListening, if_pos rfl] at hc
    rcases SortedMap.mem_insert.mp hc with rfl | hc
    · rfl
    · simp at hc
  opened := by simp [init, passOf]
  threads := fun _ => rfl
  effects := by simp [init, pending]

theorem threadStep_alone (h : Alone s) (b : Workers.Act) : s.threadStep capacity b = none := by
  have hrun : ∀ w, s.workers.running w = none := fun w => by rw [Workers.running, h.threads w]; rfl
  cases b with
  | respond w | nudged w | enter w | receive w | workerExited w | ends w =>
    simp [threadStep, Workers.step, hrun]
  | sendToWorker | requestExit | stop | join | joined | reap => rfl

theorem threads_alone (h : Alone s) {b : Workers.Act} {workers : Workers}
    (hb : b = .stop ∨ b = .join ∨ b = .joined ∨ b = .reap)
    (hw : s.workers.step b = some workers) (w : Ptr) : workers.threads.find w = none := by
  cases ht : workers.threads.find w with
  | none => rfl
  | some t =>
    rcases Workers.step_evolved hw ht with ⟨t₀, ht₀, -⟩ | ⟨-, g, msg, worker, rfl, -⟩
    · rw [h.threads w] at ht₀
      cases ht₀
    · simp at hb

theorem Alone.keep (h : Alone s) (hc : s'.connections = s.connections)
    (hpass : ∀ pass' ∈ passOf s'.main, ∃ pass ∈ passOf s.main, pass'.todo ⊆ pass.todo ∧
      pass'.closedConnections = pass.closedConnections)
    (ht : ∀ w, s'.workers.threads.find w = none) (he : ∀ e ∈ pending s'.main, e ∈ pending s.main) :
    Alone s' where
  conn := hc ▸ h.conn
  visits := fun pass' hp' v hv => by
    obtain ⟨pass, hp, hsub, -⟩ := hpass pass' hp'
    exact h.visits pass hp v (hsub hv)
  only := hc ▸ h.only
  opened := fun pass' hp' => by
    obtain ⟨pass, hp, -, heq⟩ := hpass pass' hp'
    exact heq ▸ h.opened pass hp
  threads := ht
  effects := fun e hmem => h.effects e (he e hmem)

/-- What a step carries, and what it leaves. -/
def Keeping (write : Writer) (s : Server) (a : Act) (s' : Server) : Prop :=
  Alone s' ∧ ∃ i i', s.connections.find 0 = some i ∧ s'.connections.find 0 = some i' ∧
    Carries write i (s.outward 0) a i' (s'.outward 0)

theorem keeping_outward (h : Alone s) (h' : Alone s') (hc : s'.connections = s.connections)
    (ho : s'.outward 0 = s.outward 0) (hread : ∀ data, a ≠ .connRead (some data))
    (hwrite : ∀ n, a ≠ .connWrite (some n)) : Keeping write s a s' := by
  obtain ⟨i, hi⟩ := h.conn
  refine ⟨h', i, i, hi, hc ▸ hi, ?_⟩
  rw [ho]
  exact .quiet hread hwrite rfl

theorem keeping_quiet (h : Alone s) (h' : Alone s') (hc : s'.connections = s.connections)
    (ho : s'.outgoing = s.outgoing) (hp : pending s'.main = pending s.main)
    (hread : ∀ data, a ≠ .connRead (some data)) (hwrite : ∀ n, a ≠ .connWrite (some n)) :
    Keeping write s a s' := by
  refine keeping_outward h h' hc ?_ hread hwrite
  rw [outward, outward, hc, ho, hp]

theorem keeping_select (h : Alone s) {readable writable : List ℤ}
    (hs : s.step write capacity (.select readable writable) = some s') :
    Keeping write s (.select readable writable) s' := by
  obtain ⟨hm, hs⟩ := Option.ite_none_right_eq_some.mp hs
  have hbegin : ∀ main, passOf main = some ⟨Server.visits s.connections readable writable, .empty⟩ →
      pending main = [] → Keeping write s (.select readable writable) { s with main } := by
    intro main hp hnone
    refine keeping_quiet h ⟨h.conn, fun pass hpass v hv => ?_, h.only, fun pass hpass => ?_,
      h.threads, ?_⟩ rfl rfl ?_
      (by simp) (by simp)
    · obtain rfl := Option.some.inj (hp.symm.trans hpass)
      obtain ⟨j, hj, hv⟩ := List.mem_flatMap.mp hv
      have hzero := h.only j.1 (SortedMap.mem_keys_iff.mp (List.mem_map_of_mem hj))
      rw [hzero] at hv
      rcases List.mem_append.mp hv with hv | hv
      · split_ifs at hv
        · exact .inl (List.mem_singleton.mp hv)
        · cases hv
      · split_ifs at hv
        · exact .inr (List.mem_singleton.mp hv)
        · cases hv
    · obtain rfl := Option.some.inj (hp.symm.trans hpass)
      simp
    · simp [hnone]
    · rw [hnone, hm]
      rfl
  split_ifs at hs with hn
  · obtain rfl := Option.some.inj hs
    exact hbegin _ rfl rfl
  · obtain rfl := Option.some.inj hs
    exact hbegin _ rfl rfl

theorem keeping_dispatchResponses (h : Alone s)
    (hs : s.step write capacity .dispatchResponses = some s') :
    Keeping write s .dispatchResponses s' := by
  simp only [step] at hs
  split at hs
  · rename_i pass hm
    obtain rfl := Option.some.inj hs
    obtain ⟨i, hi⟩ := h.conn
    have hi' := find_dispatchResponses s.connections s.outgoing 0
    rw [hi, Option.map_some] at hi'
    refine ⟨⟨⟨_, hi'⟩, fun pass' hp' => ?_, fun c hc => h.only c (mem_dispatchResponses.mp hc),
      fun pass' hp' => ?_,
      h.threads, by simp [pending]⟩, i, _, hi, hi', ?_⟩
    · obtain rfl := Option.some.inj hp'
      exact h.visits pass (by rw [hm]; rfl)
    · obtain rfl := Option.some.inj hp'
      exact h.opened pass (by rw [hm]; rfl)
    · have hout : Server.outward
          { s with
            connections := Server.dispatchResponses s.connections s.outgoing
            outgoing := []
            main := .conns pass } 0 = s.outward 0 := by
        simp only [outward, hi', hi, hm, pending, Option.elim_some]
        simp [responsesFor, toSend]
      rw [hout]
      exact .quiet (by simp) (by simp) rfl
  · cases hs

theorem keeping_connRead (h : Alone s) {data : Option Bytes} (heof : data ≠ some [])
    (hs : s.step write capacity (.connRead data) = some s')
    (hdirect : ∀ bytes i, data = some bytes → s.connections.find 0 = some i →
      ∀ e ∈ (received write 0 i.readBuf bytes).1, ∃ response, e = .sendResponse 0 response) :
    Keeping write s (.connRead data) s' := by
  simp only [step] at hs
  split at hs
  · rename_i c todo closed hm
    have hpass : passOf s.main = some ⟨.read c :: todo, closed⟩ := by rw [hm]; rfl
    obtain rfl : c = 0 := by simpa using h.visits _ hpass (.read c) (List.mem_cons_self ..)
    cases data with
    | none =>
      obtain rfl := Option.some.inj hs
      refine keeping_quiet h (h.keep rfl (fun pass' hp' => ?_) h.threads
        (by simp [pending])) rfl rfl
        (by rw [hm]; rfl) (by simp) (by simp)
      obtain rfl := Option.some.inj hp'
      exact ⟨_, hpass, List.subset_cons_self _ _, rfl⟩
    | some data =>
      cases data with
      | nil => exact absurd rfl heof
      | cons b bs =>
        obtain ⟨-, hs⟩ := Option.ite_none_right_eq_some.mp hs
        obtain ⟨i, hi, rfl⟩ := Option.map_eq_some_iff.mp hs
        generalize hdata : b :: bs = data at *
        have hi' : (s.connections.modify 0 fun i' =>
          { i' with readBuf := (received write 0 i.readBuf data).2 }).find 0 =
            some { i with readBuf := (received write 0 i.readBuf data).2 } :=
              SortedMap.find_modify_self hi _
        refine ⟨⟨⟨_, hi'⟩, fun pass' hp' v hv => ?_, fun c hc =>
          h.only c (SortedMap.mem_modify.mp hc),
          fun pass' hp' => ?_, h.threads, hdirect _ _ rfl hi⟩, i, _, hi, hi', ?_⟩
        · obtain rfl := Option.some.inj hp'
          exact h.visits _ hpass v (List.mem_cons_of_mem _ hv)
        · obtain rfl := Option.some.inj hp'
          exact h.opened ⟨.read 0 :: todo, closed⟩ hpass
        · have hout : Server.outward
              { s with
                connections := s.connections.modify 0 fun i' =>
                  { i' with readBuf := (received write 0 i.readBuf data).2 }
                main := .dispatching (received write 0 i.readBuf data).1 ⟨todo, closed⟩ } 0 =
              s.outward 0 ++ toSend 0 (received write 0 i.readBuf data).1 := by
            simp only [outward, hi', hi, hm, pending, Option.elim_some]
            simp [toSend, responsesFor]
          rw [hout]
          refine .read ?_ rfl
          rw [← hdata]
          exact List.cons_ne_nil _ _
  · cases hs

theorem keeping_connWrite (h : Alone s) {n : ℕ}
    (hs : s.step write capacity (.connWrite (some n)) = some s') :
    Keeping write s (.connWrite (some n)) s' := by
  simp only [step] at hs
  split at hs
  · rename_i c todo closed hm
    have hpass : passOf s.main = some ⟨.write c :: todo, closed⟩ := by rw [hm]; rfl
    obtain rfl : c = 0 := by simpa using h.visits _ hpass (.write c) (List.mem_cons_self ..)
    obtain ⟨-, hs⟩ := Option.ite_none_right_eq_some.mp hs
    obtain ⟨i, hi, hs⟩ := Option.bind_eq_some_iff.mp hs
    obtain ⟨-, hs⟩ := Option.ite_none_right_eq_some.mp hs
    obtain rfl := Option.some.inj hs
    have hi' : (s.connections.modify 0 fun i' =>
      { i' with writeBuf := i'.writeBuf.drop n }).find 0 =
        some { i with writeBuf := i.writeBuf.drop n } := SortedMap.find_modify_self hi _
    refine ⟨⟨⟨_, hi'⟩, fun pass' hp' v hv => ?_, fun c hc => h.only c (SortedMap.mem_modify.mp hc),
      fun pass' hp' => ?_, h.threads, by simp [pending]⟩, i, _, hi, hi', .wrote rfl ?_⟩
    · obtain rfl := Option.some.inj hp'
      exact h.visits _ hpass v (List.mem_cons_of_mem _ hv)
    · obtain rfl := Option.some.inj hp'
      exact h.opened ⟨.write 0 :: todo, closed⟩ hpass
    · simp only [outward, hi', hi, hm, pending, Option.elim_some]
      rw [← List.append_assoc (i.writeBuf.take n), List.take_append_drop]
  · cases hs

theorem keeping_endPass (h : Alone s) (hs : s.step write capacity .endPass = some s') :
    Keeping write s .endPass s' := by
  simp only [step] at hs
  split at hs
  · rename_i closed hm
    obtain rfl := Option.some.inj hs
    have hopen : (0 : ℤ) ∉ closed := h.opened ⟨[], closed⟩ (by rw [hm]; rfl)
    obtain ⟨i, hi⟩ := h.conn
    have hi' : (closeAll s.connections closed).find 0 = some i := by
      rw [find_closeAll, if_neg hopen, hi]
    refine ⟨⟨⟨_, hi'⟩, by simp [passOf], fun c hc => h.only c (mem_closeAll.mp hc).2,
      by simp [passOf], h.threads,
      by simp [pending]⟩, i, i, hi, hi', ?_⟩
    have hout : Server.outward { s with
        connections := closeAll s.connections closed, main := .top } 0 = s.outward 0 := by
      simp only [outward, hi', hi, hm, pending]
    rw [hout]
    exact .quiet (by simp) (by simp) rfl
  · cases hs

theorem keeping_execute (h : Alone s) {fresh : Ptr}
    (hs : s.step write capacity (.execute fresh) = some s') :
    Keeping write s (.execute fresh) s' := by
  simp only [step] at hs
  split at hs
  · rename_i e effects pass hm
    have hpass : passOf s.main = some pass := by rw [hm]; rfl
    have heffects : ∀ e' ∈ e :: effects, ∃ response, e' = .sendResponse 0 response := by
      have := h.effects
      rwa [hm] at this
    obtain ⟨response, rfl⟩ := heffects e (List.mem_cons_self ..)
    obtain rfl := Option.some.inj hs
    refine keeping_outward h (h.keep rfl (fun pass' hp' => ?_) h.threads fun e' he' => ?_) rfl ?_
      (by simp) (by simp)
    · obtain rfl := Option.some.inj hp'
      exact ⟨_, hpass, List.Subset.refl _, rfl⟩
    · rw [hm]
      exact List.mem_cons_of_mem _ he'
    · simp only [outward, hm, pending]
      simp [toSend, responsesFor, Effect.response?]
  · cases hs

/-- A step of a server with nothing but connection 0 leaves it so, and carries its bytes: new
requests add to those on their way out what the dispatcher answers, a write takes off the front. -/
theorem keeping_step (h : Alone s) (hs : s.step write capacity a = some s')
    (heof : a ≠ .connRead (some []))
    (hfail : a ≠ .connWrite none)
    (hdirect : ∀ data i, a = .connRead (some data) → s.connections.find 0 = some i →
      ∀ e ∈ (received write 0 i.readBuf data).1, ∃ response, e = .sendResponse 0 response) :
    Keeping write s a s' := by
  have hmain : ∀ main, s' = { s with main } → (∀ pass' ∈ passOf main, passOf s.main = some pass') →
      pending main = pending s.main → (∀ data, a ≠ .connRead (some data)) →
        (∀ n, a ≠ .connWrite (some n)) →
      Keeping write s a s' := by
    rintro main rfl hpass hp hread hwrite
    refine keeping_quiet h (h.keep rfl
      (fun pass' hp' => ⟨pass', hpass pass' hp', List.Subset.refl _, rfl⟩) h.threads
      (fun e he => hp ▸ he)) rfl rfl hp hread hwrite
  cases a with
  | thread b =>
    rw [Server.step, threadStep_alone h b] at hs
    cases hs
  | shutdown =>
    obtain ⟨-, hs⟩ := Option.ite_none_right_eq_some.mp hs
    obtain rfl := Option.some.inj hs
    exact keeping_quiet h (h.keep rfl
      (fun pass' hp' => ⟨pass', hp', List.Subset.refl _, rfl⟩) h.threads
      fun _ he => he) rfl rfl rfl (by simp) (by simp)
  | loop =>
    obtain ⟨hm, hs⟩ := Option.ite_none_right_eq_some.mp hs
    obtain rfl := Option.some.inj hs
    refine hmain _ rfl ?_ ?_ (by simp) (by simp)
    · split_ifs <;> simp [passOf]
    · rw [hm]
      split_ifs <;> rfl
  | interrupted =>
    obtain ⟨hm, hs⟩ := Option.ite_none_right_eq_some.mp hs
    obtain rfl := Option.some.inj hs
    exact hmain _ rfl (by simp [passOf]) (by rw [hm]; rfl) (by simp) (by simp)
  | select readable writable => exact keeping_select h hs
  | readNudge n =>
    simp only [step] at hs
    split at hs
    · rename_i pass hm
      obtain ⟨-, hs⟩ := Option.ite_none_right_eq_some.mp hs
      obtain rfl := Option.some.inj hs
      refine keeping_quiet h (h.keep rfl (fun pass' hp' => ?_) h.threads ?_) rfl rfl ?_ (by simp)
        (by simp)
      · split_ifs at hp' with hS
        · cases hp'
        · obtain rfl := Option.some.inj hp'
          exact ⟨pass, by rw [hm]; rfl, List.Subset.refl _, rfl⟩
      · split_ifs <;> simp [pending]
      · rw [hm]
        split_ifs <;> rfl
    · cases hs
  | dispatchResponses => exact keeping_dispatchResponses h hs
  | connRead data =>
    exact keeping_connRead h (fun he => heof (by rw [he])) hs fun bytes i hb =>
      hdirect bytes i (by rw [hb])
  | connWrite n =>
    cases n with
    | none => exact absurd rfl hfail
    | some n => exact keeping_connWrite h hs
  | endPass => exact keeping_endPass h hs
  | execute fresh => exact keeping_execute h hs
  | writeNudge =>
    simp only [step] at hs
    split at hs
    · rename_i effects pass hm
      obtain ⟨-, hs⟩ := Option.ite_none_right_eq_some.mp hs
      obtain rfl := Option.some.inj hs
      refine keeping_quiet h (h.keep rfl (fun pass' hp' => ?_) h.threads ?_) rfl rfl ?_ (by simp)
        (by simp)
      · obtain rfl := Option.some.inj hp'
        exact ⟨_, by rw [hm]; rfl, List.Subset.refl _, rfl⟩
      · rw [hm]
        exact fun _ he => he
      · rw [hm]
        rfl
    · cases hs
  | endDispatch =>
    simp only [step] at hs
    split at hs
    · rename_i pass hm
      obtain rfl := Option.some.inj hs
      refine hmain _ rfl (fun pass' hp' => ?_) (by rw [hm]; rfl) (by simp) (by simp)
      rw [hm]
      exact hp'
    · cases hs
  | stop =>
    obtain ⟨hm, hs⟩ := Option.ite_none_right_eq_some.mp hs
    obtain ⟨workers, hw, rfl⟩ := Option.map_eq_some_iff.mp hs
    exact keeping_quiet h (h.keep rfl (by simp [passOf]) (threads_alone h (.inl rfl) hw)
      (by simp [pending])) rfl
      rfl (by rw [hm]; rfl) (by simp) (by simp)
  | join =>
    obtain ⟨hm, hs⟩ := Option.ite_none_right_eq_some.mp hs
    obtain ⟨workers, hw, rfl⟩ := Option.map_eq_some_iff.mp hs
    exact keeping_quiet h (h.keep rfl (by simp [passOf]) (threads_alone h (.inr (.inl rfl)) hw)
      (by simp [pending])) rfl
      rfl (by rw [hm]; rfl) (by simp) (by simp)
  | joined =>
    obtain ⟨hm, hs⟩ := Option.ite_none_right_eq_some.mp hs
    obtain ⟨workers, hw, rfl⟩ := Option.map_eq_some_iff.mp hs
    exact keeping_quiet h (h.keep rfl (by simp [passOf, hm])
      (threads_alone h (.inr (.inr (.inl rfl))) hw)
      (by simp [pending, hm])) rfl rfl rfl (by simp) (by simp)
  | reap =>
    obtain ⟨hm, hs⟩ := Option.ite_none_right_eq_some.mp hs
    obtain ⟨workers, hw, rfl⟩ := Option.map_eq_some_iff.mp hs
    refine keeping_quiet h (h.keep rfl ?_ (threads_alone h (.inr (.inr (.inr rfl))) hw) ?_) rfl
      rfl ?_ (by simp) (by simp)
    · split_ifs <;> simp [passOf]
    · split_ifs <;> simp [pending]
    · rw [hm]
      split_ifs <;> rfl

end Server

end Xaprun
