import Xaprun.Proofs.RemoteRuns
import Xaprun.Sanity.Visits

/-! A call of `check` that waits for an answer gets it. As long as no byte of the answer has
arrived, something on the way to it can move, and no step moves it back. -/

namespace Xaprun

open Frames Runs

namespace Remote

variable {κ J : Type} {loads : Bytes → Option J} {write : Writer} {capacity : ℕ} {s s' : State κ J}
  {a : Act κ}
  {k m : ℕ}

/-! What holds of the server in every state. -/

theorem server_of_step (hs : step loads write capacity s a = some s') (ha : ∀ b, a ≠ .server b) :
    s'.server = s.server := by
  cases a with
  | send r =>
    obtain ⟨-, hs⟩ := Option.ite_none_right_eq_some.mp hs
    split at hs <;> (obtain rfl := Option.some.inj hs; rfl)
  | accept | check | read | expired | eof | close =>
    obtain ⟨-, hs⟩ := Option.ite_none_right_eq_some.mp hs
    obtain rfl := Option.some.inj hs
    rfl
  | broken =>
    obtain ⟨-, hs⟩ := Option.ite_none_left_eq_some.mp hs
    obtain rfl := Option.some.inj hs
    rfl
  | server b => exact absurd rfl (ha b)
  | exit =>
    obtain rfl := Option.some.inj hs
    rfl

theorem server_reachable {ok : State κ J → Act κ → Prop}
    (h : Reachable (step loads write capacity) ok (init κ J) s) :
    Reachable (Server.step write capacity) free (Server.init true) s.server := by
  refine h.simulate State.server (fun _ => True) trivial (fun _ _ _ _ _ _ => trivial)
    fun s a s' t₀ _ hs _ hr => ?_
  by_cases ha : ∃ b, a = .server b
  · obtain ⟨b, rfl⟩ := ha
    obtain ⟨-, hs⟩ := Option.ite_none_right_eq_some.mp hs
    obtain ⟨server, hstep, rfl⟩ := serverStep_some hs
    exact hr.next trivial hstep
  · rw [server_of_step hs fun b hb => ha ⟨b, hb⟩]
    exact hr

/-- What the main thread is about to read is there, as long as the connection is open. -/
def Readable (s : State κ J) : Prop :=
  s.client.closed = false → ∀ pass ∈ Server.passOf s.server.main, .read 0 ∈ pass.todo →
    s.requests ≠ []

theorem closed_of_resume {c : Client.Connection κ}
    (h : (Client.check loads c []).conn.closed = false) : c.closed = false := by
  rcases (Client.keeps_check loads [] c).kept.closed with heq | ⟨hc, -⟩
  · exact heq ▸ h
  · rw [hc] at h
    cases h

theorem readable_server {b : Server.Act} (hs : serverStep write capacity s b = some s')
    (halone : s.client.closed = false → s.server.Alone) (horderly : Server.Orderly s.server)
    (h : Readable s) :
    Readable s' := by
  have hready : ∀ readable writable, b = .select readable writable → 0 ∈ readable →
      s.requests ≠ [] ∨ s.client.closed = true := by
    rintro readable writable rfl
    exact (Option.ite_none_right_eq_some.mp hs).1
  obtain ⟨server, hstep, rfl⟩ := serverStep_some hs
  intro hopen pass' hp' hread
  have hkept : (∀ data, b ≠ .connRead data) → s.requests.drop (consumed b) = s.requests := by
    intro hb
    have hzero : consumed b = 0 := by
      cases b with
      | connRead data => exact absurd rfl (hb data)
      | _ => rfl
    rw [hzero, List.drop_zero]
  cases Server.passes_of_step hstep pass' hp' with
  | selected hm htodo =>
    rw [htodo] at hread
    rcases hready _ _ rfl (Server.read_mem_visits.mp hread).1 with hne | hclosed
    · exact (hkept (by simp)).symm ▸ hne
    · rw [hopen] at hclosed
      cases hclosed
  | same hp htodo hnoread => exact (hkept hnoread).symm ▸ h hopen _ hp (htodo ▸ hread)
  | @read c data pass _ hp htodo =>
    -- the visit was the only read of connection 0
    have hnodup := horderly.once _ hp
    rw [htodo] at hnodup
    obtain rfl : c = 0 := by
      simpa using (halone hopen).visits _ hp (.read c) (htodo ▸ List.mem_cons_self ..)
    exact absurd hread (List.nodup_cons.mp hnodup).1
  | wrote hm htodo =>
    exact (hkept (by simp)).symm ▸ h hopen _ (by rw [hm]; rfl)
      (htodo ▸ List.mem_cons_of_mem _ hread)

theorem readable_step (hs : step loads write capacity s a = some s')
    (halone : s.client.closed = false → s.server.Alone) (horderly : Server.Orderly s.server)
    (h : Readable s) :
    Readable s' := by
  cases a with
  | send r =>
    obtain ⟨-, hs⟩ := Option.ite_none_right_eq_some.mp hs
    split at hs
    · obtain rfl := Option.some.inj hs
      exact h
    · rename_i sent hsend
      obtain rfl := Option.some.inj hs
      have hclosed : sent.conn.closed = s.client.closed := by
        rcases Client.send_cases s.client r.method r.target r.payload r.callback
          with ⟨-, heq⟩ | ⟨-, heq⟩ | ⟨-, written, heq⟩
        · rw [heq] at hsend
          cases hsend
        · rw [heq] at hsend
          obtain rfl := Except.ok.inj hsend
          rfl
        · rw [heq] at hsend
          obtain rfl := Except.ok.inj hsend
          rfl
      exact fun hopen => h (hclosed ▸ hopen)
  | accept n =>
    obtain ⟨-, hs⟩ := Option.ite_none_right_eq_some.mp hs
    obtain rfl := Option.some.inj hs
    exact fun hopen pass hp hread => List.append_ne_nil_of_left_ne_nil (h hopen pass hp hread) _
  | broken =>
    obtain ⟨-, hs⟩ := Option.ite_none_left_eq_some.mp hs
    obtain rfl := Option.some.inj hs
    exact h
  | check =>
    obtain ⟨-, hs⟩ := Option.ite_none_right_eq_some.mp hs
    obtain rfl := Option.some.inj hs
    exact fun hopen => h (closed_of_resume hopen)
  | read n =>
    obtain ⟨⟨-, hopen, -⟩, hs⟩ := Option.ite_none_right_eq_some.mp hs
    obtain rfl := Option.some.inj hs
    exact fun _ => h hopen
  | expired =>
    obtain ⟨-, hs⟩ := Option.ite_none_right_eq_some.mp hs
    obtain rfl := Option.some.inj hs
    exact h
  | eof | close =>
    obtain ⟨-, hs⟩ := Option.ite_none_right_eq_some.mp hs
    obtain rfl := Option.some.inj hs
    intro hopen
    cases hopen
  | server b =>
    obtain ⟨-, hs⟩ := Option.ite_none_right_eq_some.mp hs
    exact readable_server hs halone horderly h
  | exit =>
    obtain rfl := Option.some.inj hs
    exact h

/-- In an open connection client and server are in step. -/
theorem synced_of_open (h : Reachable (step loads write capacity) PlainSends (init κ J) s)
    (hopen : s.client.closed = false) :
    ∃ k m, Synced loads write s k m := by
  rcases conversing_of_reachable h with hsynced | ⟨k, hsettled⟩
  · exact hsynced
  · rw [hsettled.closed] at hopen
    cases hopen

theorem readable_of_reachable (h : Reachable (step loads write capacity) PlainSends (init κ J) s) :
    Readable s := by
  refine h.invariant_of_reachable Readable ?_ fun s a s' hr _ hs hi =>
    readable_step hs (fun hopen => ?_) ?_ hi
  · simp [Readable, init, Server.init, Server.passOf]
  · obtain ⟨k, m, hsynced⟩ := synced_of_open hr hopen
    exact hsynced.alone
  · exact Server.orderly_of_reachable (server_reachable hr)

/-! Something can move. -/

/-- A call of `check` waits for an answer in an open connection, and the server serves it. -/
structure Waiting (loads : Bytes → Option J) (write : Writer) (capacity : ℕ) (s₀ s : State κ J) :
    Prop where
  reachable : Reachable (step loads write capacity) PlainSends (init κ J) s
  opened : s.client.closed = false
  serves : Serves s
  checking : s.checking = true
  calls : s.calls = s₀.calls
  fired : s.fired = s₀.fired
  left : s.fired.length < s.calls.length

theorem exists_server (halive : s.alive = true) (b : Server.Act)
    (hs : ∃ server, s.server.step write capacity b = some server) (hinner : Inner s (.server b))
    (hselect : ∀ readable writable, b ≠ .select readable writable)
    (hread : ∀ data, b ≠ .connRead data)
    (hwrite : ∀ n, b ≠ .connWrite n) :
    ∃ a s', Inner s a ∧ step loads write capacity s a = some s' := by
  obtain ⟨server, hs⟩ := hs
  refine ⟨.server b, { s with server }, hinner, ?_⟩
  rw [step, if_pos halive]
  cases b with
  | select readable writable => exact absurd rfl (hselect _ _)
  | connRead data => exact absurd rfl (hread _)
  | connWrite n => exact absurd rfl (hwrite _)
  | thread | shutdown | loop | interrupted | readNudge | dispatchResponses | endPass | execute
  | writeNudge
  | endDispatch | stop | join | joined | reap =>
    exact congrArg (Option.map fun server => { s with server }) hs

/-- `select` returns with something to read from the nudge socket or to do for the connection. -/
theorem exists_select (halive : s.alive = true) (hm : s.server.main = .select)
    (readable writable : List ℤ)
    (hready : 0 ∈ readable → s.requests ≠ [])
    (hsome : s.server.nudge ≠ [] ∨ Server.visits s.server.connections readable writable ≠ []) :
    ∃ a s', Inner s a ∧ step loads write capacity s a = some s' := by
  have hstep : ∃ server, s.server.step write capacity (.select readable writable) =
      some server := by
    rw [Server.step, if_pos hm]
    by_cases hn : s.server.nudge = []
    · rw [if_neg (not_not.mpr hn), if_pos (hsome.resolve_left (not_not.mpr hn))]
      exact ⟨_, rfl⟩
    · rw [if_pos hn]
      exact ⟨_, rfl⟩
  obtain ⟨server, hserver⟩ := hstep
  refine ⟨.server (.select readable writable), { s with server }, trivial, ?_⟩
  rw [step, if_pos halive]
  unfold serverStep
  dsimp only
  rw [if_pos fun h0 => .inl (hready h0), hserver]
  rfl

/-- With nothing on the way, every call has been answered. -/
theorem answered_of_empty (h : Reachable (step loads write capacity) PlainSends (init κ J) s)
    (hsynced : Synced loads write s k m)
    (halive : s.alive = true) (hchecking : s.checking = true) (hm : s.server.main = .select)
    (hnudge : s.server.nudge = [])
    (hsending : s.sending = []) (hrequests : s.requests = []) (hresponses : s.responses = [])
    (hwriteBuf : ∀ i, s.server.connections.find 0 = some i → i.writeBuf = []) :
    s.calls.length ≤ k := by
  obtain ⟨i, hi⟩ := hsynced.alone.conn
  have houtgoing : s.server.outgoing = [] := by
    by_contra hne
    have hmain : Server.AtMain s.server.main .select := by rw [hm]; rfl
    rcases Server.responses_awaited (server_reachable h) hmain (by simp) hne with
      hr | ⟨w, t, ht, -⟩ | ⟨effects, pass, hn⟩ | ⟨pass, hd⟩
    · rw [hnudge] at hr
      cases hr
    · rw [hsynced.alone.threads w] at ht
      cases ht
    · rw [hm] at hn
      cases hn
    · rw [hm] at hd
      cases hd
  have houtward : s.server.outward 0 = [] := by
    rw [Server.outward, hi, Option.elim_some, hwriteBuf i hi, houtgoing, hm]
    rfl
  have hanswer : toAnswer write s.calls m = [] := by
    obtain ⟨fs, hbodies, -, hstream, hhead⟩ := hsynced.unread halive i hi
    rw [hrequests, hsending, List.append_nil, List.append_nil] at hstream
    -- the first frame would be complete in the buffer
    cases fs with
    | nil =>
      have hnone : (Client.messages 0 0 s.calls).drop m = [] := List.map_eq_nil_iff.mp hbodies.symm
      rw [toAnswer, hnone]
      rfl
    | cons f fs =>
      have hlt := hhead f rfl
      rw [hstream, stream_cons, List.length_append] at hlt
      omega
  have htodo := hsynced.answering
  rw [hresponses, houtward, hanswer] at htodo
  have hpass : Client.pass loads s.client = .more s.client :=
    Client.pass_eq_more_iff.mpr (hsynced.checking hchecking)
  rcases answering_check loads htodo hsynced.requested.valid
    with ⟨_, -, -, -, hall⟩ | ⟨_, _, heq, -⟩
  · exact hall rfl
  · rw [Client.check, hpass] at heq
    simp [Client.Pass.andThen] at heq

theorem exists_visit (h : Reachable (step loads write capacity) PlainSends (init κ J) s)
    (hsynced : Synced loads write s k m)
    (halive : s.alive = true) {v : Visit} {todo : List Visit} {closed : SortedSet ℤ}
    (hm : s.server.main = .conns ⟨v :: todo, closed⟩) :
    ∃ a s', Inner s a ∧ step loads write capacity s a = some s' := by
  have hopen := hsynced.answering.closed
  have hpass : (⟨v :: todo, closed⟩ : Pass) ∈ Server.passOf s.server.main := by rw [hm]; rfl
  obtain ⟨i, hi⟩ := hsynced.alone.conn
  rcases hsynced.alone.visits _ hpass v (List.mem_cons_self ..) with rfl | rfl
  · obtain ⟨b, bs, hrequests⟩ := List.exists_cons_of_ne_nil
      (readable_of_reachable h hopen _ hpass (List.mem_cons_self ..))
    have hstep : ∃ server, s.server.step write capacity (.connRead (some [b])) = some server := by
      simp only [Server.step, hm, Server.connRead, hi]
      rw [if_pos (by simp [Server.maxToRead])]
      exact ⟨_, rfl⟩
    obtain ⟨server, hserver⟩ := hstep
    refine ⟨.server (.connRead (some [b])), { s with server, requests := s.requests.drop 1 },
      by simp [Inner], ?_⟩
    have hahead : [b] <+: s.requests := ⟨bs, hrequests.symm⟩
    rw [step, if_pos halive]
    simp only [serverStep]
    rw [if_pos hahead, hserver]
    rfl
  · obtain ⟨j, hj, hne⟩ := (Server.orderly_of_reachable (server_reachable h)).due _ hpass 0
      (List.mem_cons_self ..)
    have hstep : ∃ server, s.server.step write capacity (.connWrite (some 1)) = some server := by
      simp only [Server.step, hm, Server.connWrite, hj]
      rw [if_pos Nat.one_pos, Option.bind_some,
        if_pos (Nat.succ_le_of_lt (List.length_pos_of_ne_nil hne))]
      exact ⟨_, rfl⟩
    obtain ⟨server, hserver⟩ := hstep
    refine ⟨.server (.connWrite (some 1)),
      { s with server, responses := s.responses ++ taken s.server 0 1 },
      by simp [Inner], ?_⟩
    rw [step, if_pos halive]
    simp only [serverStep]
    rw [if_pos hopen, hserver]
    rfl

theorem exists_inner (h : Waiting loads write capacity s' s) :
    Blocked capacity s ∨ ∃ a s', Inner s a ∧ step loads write capacity s a = some s' := by
  obtain ⟨k, m, hsynced⟩ := synced_of_open h.reachable h.opened
  have halive := h.serves.alive
  have halone := hsynced.alone
  have hlooping := h.serves.looping
  cases hm : s.server.main with
  | top =>
    refine .inr (exists_server halive .loop ?_ trivial (by simp) (by simp) (by simp))
    rw [Server.step, if_pos hm]
    exact ⟨_, rfl⟩
  | select =>
    right
    by_cases hnudge : s.server.nudge = []
    · obtain ⟨i, hi⟩ := halone.conn
      by_cases hrequests : s.requests = []
      · by_cases hwriteBuf : i.writeBuf = []
        · by_cases hsending : s.sending = []
          · -- only bytes for the client can be left
            have hresponses : s.responses ≠ [] := fun hresponses => by
              have hall := answered_of_empty h.reachable hsynced halive h.checking hm hnudge
                hsending hrequests hresponses
                fun j hj => by rwa [← Option.some.inj (hi.symm.trans hj)]
              have := h.left
              rw [hsynced.length_fired] at this
              omega
            refine ⟨.read 1, afterRead loads s 1, trivial, ?_⟩
            rw [step, if_pos ⟨h.checking, h.opened, Nat.one_pos, by decide,
              List.length_pos_of_ne_nil hresponses⟩]
            rfl
          · refine ⟨.accept s.sending.length, { s with
              requests := s.requests ++ s.sending.take s.sending.length
              sending := s.sending.drop s.sending.length }, trivial, ?_⟩
            rw [step, if_pos ⟨halive, List.length_pos_of_ne_nil hsending, Nat.le_refl _⟩]
        · exact exists_select halive hm [] [0] (by simp)
            (.inr (List.ne_nil_of_mem
              (Server.write_mem_visits.mpr ⟨List.mem_singleton_self 0, i, hi, hwriteBuf⟩)))
      · exact exists_select halive hm [0] [] (fun _ => hrequests)
          (.inr (List.ne_nil_of_mem
            (Server.read_mem_visits.mpr ⟨List.mem_singleton_self 0, SortedMap.mem_of_find hi⟩)))
    · exact exists_select halive hm [] [] (by simp) (.inl hnudge)
  | reading pass =>
    refine .inr (exists_server halive (.readNudge 1) ?_ Nat.one_pos (by simp) (by simp) (by simp))
    simp only [Server.step, hm]
    rw [if_pos (by decide)]
    exact ⟨_, rfl⟩
  | draining pass =>
    refine .inr (exists_server halive .dispatchResponses ?_ trivial (by simp) (by simp) (by simp))
    simp only [Server.step, hm]
    exact ⟨_, rfl⟩
  | conns pass =>
    obtain ⟨todo, closed⟩ := pass
    cases todo with
    | nil =>
      refine .inr (exists_server halive .endPass ?_ trivial (by simp) (by simp) (by simp))
      simp only [Server.step, hm]
      exact ⟨_, rfl⟩
    | cons v todo => exact .inr (exists_visit h.reachable hsynced halive hm)
  | dispatching effects pass =>
    have heffects := halone.effects
    rw [hm] at heffects
    cases effects with
    | nil =>
      refine .inr (exists_server halive .endDispatch ?_ trivial (by simp) (by simp) (by simp))
      simp only [Server.step, hm]
      exact ⟨_, rfl⟩
    | cons e effects =>
      obtain ⟨response, rfl⟩ := heffects e (List.mem_cons_self ..)
      refine .inr (exists_server halive (.execute 0) ?_ trivial (by simp) (by simp) (by simp))
      simp only [Server.step, hm]
      exact ⟨_, rfl⟩
  | nudging effects pass =>
    by_cases hroom : s.server.nudge.length < capacity
    · refine .inr (exists_server halive .writeNudge ?_ trivial (by simp) (by simp) (by simp))
      simp only [Server.step, hm]
      rw [if_pos hroom]
      exact ⟨_, rfl⟩
    · exact .inl ⟨effects, pass, hm, Nat.le_of_not_lt hroom⟩
  | stopping | stopped | joining | finished =>
    rw [hm] at hlooping
    cases hlooping

/-! No step moves it back. -/

/-- The bytes that the server has yet to read, those in the pipe counted once and those before it
twice. -/
def unread (s : State κ J) : ℕ := 2 * s.sending.length + s.requests.length

def duties : MainPc → ℕ
  | .dispatching effects _ => 2 * effects.length
  | .nudging effects _ => 2 * effects.length + 1
  | _ => 0

/-- The bytes on their way to the client, each counted once for every place it has yet to pass. -/
def undelivered (s : State κ J) : ℕ :=
  3 * (Server.responsesFor 0 s.server.outgoing).length +
    (2 * (s.server.connections.find 0).elim 0 (·.writeBuf.length) + s.responses.length)

/-- Where the main thread is on its way to the next read or write. -/
def place : MainPc → ℕ
  | .draining _ | .dispatching .. | .nudging .. => 6
  | .conns ⟨[], _⟩ => 5
  | .top => 4
  | .select => 3
  | .reading _ => 2
  | .conns _ => 1
  | .stopping | .stopped | .joining | .finished => 0

def distance (s : State κ J) : ℕ × ℕ × ℕ × ℕ × ℕ :=
  (unread s, duties s.server.main, s.server.nudge.length, undelivered s, place s.server.main)

def Nearer : ℕ × ℕ × ℕ × ℕ × ℕ → ℕ × ℕ × ℕ × ℕ × ℕ → Prop :=
  Prod.Lex (· < ·) (Prod.Lex (· < ·) (Prod.Lex (· < ·) (Prod.Lex (· < ·) (· < ·))))

theorem nearer_wf : WellFounded Nearer :=
  (Prod.lex Nat.lt_wfRel (Prod.lex Nat.lt_wfRel
    (Prod.lex Nat.lt_wfRel (Prod.lex Nat.lt_wfRel Nat.lt_wfRel)))).wf

theorem nearer_iff {p q : ℕ × ℕ × ℕ × ℕ × ℕ} :
    Nearer p q ↔ p.1 < q.1 ∨ p.1 = q.1 ∧
      (p.2.1 < q.2.1 ∨ p.2.1 = q.2.1 ∧ (p.2.2.1 < q.2.2.1 ∨ p.2.2.1 = q.2.2.1 ∧
      (p.2.2.2.1 < q.2.2.2.1 ∨ p.2.2.2.1 = q.2.2.2.1 ∧ p.2.2.2.2 < q.2.2.2.2))) := by
  simp only [Nearer, Prod.lex_def]

theorem nearer_place {server : Server} (hduties : duties server.main = duties s.server.main)
    (hnudge : server.nudge = s.server.nudge)
    (hundelivered : undelivered { s with server } ≤ undelivered s)
    (hplace : place server.main < place s.server.main) :
    Nearer (distance { s with server }) (distance s) := by
  refine nearer_iff.mpr (.inr ⟨rfl, .inr ⟨hduties, .inr ⟨congrArg List.length hnudge, ?_⟩⟩⟩)
  rcases Nat.lt_or_eq_of_le hundelivered with hlt | heq
  · exact .inl hlt
  · exact .inr ⟨heq, hplace⟩

theorem place_conns (pass : Pass) : place (.conns pass) < 6 := by
  obtain ⟨todo, closed⟩ := pass
  cases todo with
  | nil => exact Nat.lt_succ_self 5
  | cons v todo => exact Nat.lt_of_lt_of_le Nat.one_lt_two (by decide)

theorem nearer_connRead {data : Bytes} {server : Server} (hnil : data ≠ [])
    (hahead : data <+: s.requests) :
    Nearer (distance { s with server, requests := s.requests.drop data.length }) (distance s) := by
  refine nearer_iff.mpr (.inl ?_)
  have hlen := hahead.length_le
  have hpos := List.length_pos_of_ne_nil hnil
  simp only [distance, unread, List.length_drop]
  omega

theorem nearer_connWrite {n : ℕ} {server : Server} (halone : s.server.Alone)
    (hs : s.server.step write capacity (.connWrite (some n)) = some server) :
    Nearer (distance { s with server, responses := s.responses ++ taken s.server 0 n })
      (distance s) := by
  simp only [Server.step] at hs
  split at hs
  · rename_i c todo closed hm
    obtain ⟨hpos, hs⟩ := Option.ite_none_right_eq_some.mp hs
    obtain ⟨i, hi, hs⟩ := Option.bind_eq_some_iff.mp hs
    obtain ⟨hle, hs⟩ := Option.ite_none_right_eq_some.mp hs
    obtain rfl := Option.some.inj hs
    obtain rfl : c = 0 := by
      simpa using halone.visits ⟨.write c :: todo, closed⟩ (by rw [hm]; rfl) (.write c)
        (List.mem_cons_self ..)
    have hi' : (s.server.connections.modify 0 fun i' =>
      { i' with writeBuf := i'.writeBuf.drop n }).find 0 =
        some { i with writeBuf := i.writeBuf.drop n } := SortedMap.find_modify_self hi _
    refine nearer_iff.mpr (.inr ⟨rfl, .inr ⟨?_, .inr ⟨rfl, .inl ?_⟩⟩⟩)
    · simp only [distance, hm, duties]
    · simp only [distance, undelivered, taken, hi', hi, Option.elim_some, List.length_append,
        List.length_take,
        List.length_drop]
      omega
  · cases hs

theorem nearer_select {readable writable : List ℤ} {server : Server}
    (hs : s.server.step write capacity (.select readable writable) = some server) :
    Nearer (distance { s with server }) (distance s) := by
  obtain ⟨hm, hs⟩ := Option.ite_none_right_eq_some.mp hs
  split_ifs at hs with hn htodo
  · obtain rfl := Option.some.inj hs
    refine nearer_place (by rw [hm]; rfl) rfl (Nat.le_refl _) ?_
    rw [hm]
    exact Nat.lt_succ_self 2
  · obtain rfl := Option.some.inj hs
    refine nearer_place (by rw [hm]; rfl) rfl (Nat.le_refl _) ?_
    obtain ⟨v, todo, heq⟩ := List.exists_cons_of_ne_nil htodo
    rw [hm, heq]
    exact (by decide : 1 < 3)

theorem nearer_readNudge {n : ℕ} {server : Server} (horderly : Server.Orderly s.server) (hn : 0 < n)
    (hs : s.server.step write capacity (.readNudge n) = some server) :
    Nearer (distance { s with server }) (distance s) := by
  simp only [Server.step] at hs
  split at hs
  · rename_i pass hm
    obtain ⟨-, hs⟩ := Option.ite_none_right_eq_some.mp hs
    obtain rfl := Option.some.inj hs
    refine nearer_iff.mpr (.inr ⟨rfl, .inr ⟨?_, .inl ?_⟩⟩)
    · simp only [distance, hm]
      split_ifs <;> rfl
    · have hpos := List.length_pos_of_ne_nil (horderly.told pass hm)
      simp only [distance, List.length_drop]
      omega
  · cases hs

theorem nearer_dispatchResponses {server : Server} (halone : s.server.Alone)
    (hs : s.server.step write capacity .dispatchResponses = some server) :
    Nearer (distance { s with server }) (distance s) := by
  simp only [Server.step] at hs
  split at hs
  · rename_i pass hm
    obtain rfl := Option.some.inj hs
    obtain ⟨i, hi⟩ := halone.conn
    have hi' := Server.find_dispatchResponses s.server.connections s.server.outgoing 0
    rw [hi, Option.map_some] at hi'
    refine nearer_place (by rw [hm]; rfl) rfl ?_ ?_
    · simp only [undelivered, hi', hi, Option.elim_some, List.length_append]
      simp only [Server.responsesFor, List.filter_nil, List.map_nil, List.flatten_nil,
        List.length_nil]
      omega
    · rw [hm]
      exact place_conns pass
  · cases hs

theorem nearer_endPass {server : Server} (halone : s.server.Alone)
    (hs : s.server.step write capacity .endPass = some server) :
    Nearer (distance { s with server }) (distance s) := by
  simp only [Server.step] at hs
  split at hs
  · rename_i closed hm
    obtain rfl := Option.some.inj hs
    have hopen : (0 : ℤ) ∉ closed := halone.opened ⟨[], closed⟩ (by rw [hm]; rfl)
    refine nearer_place (by rw [hm]; rfl) rfl ?_ ?_
    · rw [undelivered, undelivered, Server.find_closeAll, if_neg hopen]
    · rw [hm]
      exact Nat.lt_succ_self 4
  · cases hs

theorem nearer_duties {server : Server} (h : duties server.main < duties s.server.main) :
    Nearer (distance { s with server }) (distance s) :=
  nearer_iff.mpr (.inr ⟨rfl, .inl h⟩)

/-- A step of the server brings the answers nearer to the client. -/
theorem nearer_server {b : Server.Act} (hs : serverStep write capacity s b = some s')
    (hinner : Inner s (.server b))
    (halone : s.server.Alone) (horderly : Server.Orderly s.server) :
    Nearer (distance s') (distance s) := by
  cases b with
  | connRead data =>
    rcases data with - | - | ⟨b, bs⟩
    · exact absurd rfl hinner
    · exact absurd rfl hinner
    · obtain ⟨hahead, hs⟩ := Option.ite_none_right_eq_some.mp hs
      obtain ⟨_, hmap, rfl⟩ := Option.map_eq_some_iff.mp hs
      obtain ⟨server, -, rfl⟩ := Option.map_eq_some_iff.mp hmap
      exact nearer_connRead (List.cons_ne_nil _ _) hahead
  | connWrite written =>
    cases written with
    | none => exact absurd rfl hinner
    | some n =>
      obtain ⟨-, hs⟩ := Option.ite_none_right_eq_some.mp hs
      obtain ⟨_, hmap, rfl⟩ := Option.map_eq_some_iff.mp hs
      obtain ⟨server, hstep, rfl⟩ := Option.map_eq_some_iff.mp hmap
      exact nearer_connWrite halone hstep
  | select readable writable =>
    obtain ⟨-, hs⟩ := Option.ite_none_right_eq_some.mp hs
    obtain ⟨server, hstep, rfl⟩ := Option.map_eq_some_iff.mp hs
    exact nearer_select hstep
  | loop =>
    obtain ⟨server, hstep, rfl⟩ := Option.map_eq_some_iff.mp hs
    obtain ⟨hm, hstep⟩ := Option.ite_none_right_eq_some.mp hstep
    obtain rfl := Option.some.inj hstep
    obtain ⟨i, hi⟩ := halone.conn
    have hne : s.server.connections.toList ≠ [] :=
      List.ne_nil_of_mem (SortedMap.mem_toList_iff.mpr hi)
    rw [if_neg hne]
    refine nearer_place (by rw [hm]; rfl) rfl (Nat.le_refl _) ?_
    rw [hm]
    exact Nat.lt_succ_self 3
  | readNudge n =>
    obtain ⟨server, hstep, rfl⟩ := Option.map_eq_some_iff.mp hs
    exact nearer_readNudge horderly hinner hstep
  | dispatchResponses =>
    obtain ⟨server, hstep, rfl⟩ := Option.map_eq_some_iff.mp hs
    exact nearer_dispatchResponses halone hstep
  | endPass =>
    obtain ⟨server, hstep, rfl⟩ := Option.map_eq_some_iff.mp hs
    exact nearer_endPass halone hstep
  | execute fresh =>
    obtain ⟨server, hstep, rfl⟩ := Option.map_eq_some_iff.mp hs
    cases Server.moves_of_step hstep with
    | answer hm =>
      refine nearer_duties ?_
      rw [hm, duties, duties, List.length_cons]
      omega
    | handOver hm =>
      refine nearer_duties ?_
      rw [hm, duties, duties, List.length_cons]
      omega
  | writeNudge =>
    obtain ⟨server, hstep, rfl⟩ := Option.map_eq_some_iff.mp hs
    cases Server.moves_of_step hstep with
    | writeNudge hm =>
      refine nearer_duties ?_
      rw [hm]
      exact Nat.lt_succ_self _
  | endDispatch =>
    obtain ⟨server, hstep, rfl⟩ := Option.map_eq_some_iff.mp hs
    cases Server.moves_of_step hstep with
    | @endDispatch pass hm =>
      refine nearer_place (by rw [hm]; rfl) rfl (Nat.le_refl _) ?_
      rw [hm]
      exact place_conns pass
  | thread | shutdown | interrupted | stop | join | joined | reap => cases hinner

/-! A call of `check` in the end. -/

theorem serves_server {b : Server.Act} (h : Serves s) (hs : serverStep write capacity s b = some s')
    (hinner : Inner s (.server b)) (halone : s.server.Alone) : Serves s' := by
  obtain ⟨server, hstep, rfl⟩ := serverStep_some hs
  have hdrop : ∀ n, .S ∉ s.server.nudge.drop n := fun n hS => h.nudge (List.mem_of_mem_drop hS)
  cases Server.moves_of_step hstep with
  | quiet | respond | nudged | shutdown | interrupted | stop | join | joined | reap => cases hinner
  | loop => exact ⟨h.alive, rfl, h.nudge⟩
  | leave _ hnone =>
    obtain ⟨i, hi⟩ := halone.conn
    have hmem := SortedMap.mem_toList_iff.mpr hi
    rw [hnone] at hmem
    cases hmem
  | selectNudge | selectConns | dispatchResponses | connSkip | connRead | connWrite | endPass
  | answer | handOver
  | endDispatch => exact ⟨h.alive, rfl, h.nudge⟩
  | readNudge => exact ⟨h.alive, rfl, hdrop _⟩
  | readShutdown _ _ hS => exact absurd (List.mem_of_mem_take hS) h.nudge
  | writeNudge =>
    refine ⟨h.alive, rfl, fun hS => ?_⟩
    rcases List.mem_append.mp hS with hS | hS
    · exact h.nudge hS
    · cases List.mem_singleton.mp hS

theorem plainSends_of_ne_send (h : ∀ r, a ≠ .send r) : PlainSends s a := by
  cases a with
  | send r => exact absurd rfl (h r)
  | accept | broken | check | read | expired | eof | close | server | exit => trivial

/-- What the pipes and the server do leaves the client as it is. -/
structure Flows (s s' : State κ J) : Prop where
  client : s'.client = s.client
  checking : s'.checking = s.checking
  calls : s'.calls = s.calls
  fired : s'.fired = s.fired
  serves : Serves s'
  nearer : Nearer (distance s') (distance s)

theorem flows_step (h : Reachable (step loads write capacity) PlainSends (init κ J) s)
    (hopen : s.client.closed = false)
    (hserves : Serves s) (hinner : Inner s a) (hread : ∀ n, a ≠ .read n)
    (hs : step loads write capacity s a = some s') :
    Flows s s' := by
  cases a with
  | accept n =>
    obtain ⟨⟨-, hpos, hle⟩, hs⟩ := Option.ite_none_right_eq_some.mp hs
    obtain rfl := Option.some.inj hs
    refine ⟨rfl, rfl, rfl, rfl, ⟨hserves.alive, hserves.looping, hserves.nudge⟩,
      nearer_iff.mpr (.inl ?_)⟩
    simp only [distance, unread, List.length_append, List.length_take, List.length_drop]
    omega
  | read n => exact absurd rfl (hread n)
  | server b =>
    obtain ⟨k, m, hsynced⟩ := synced_of_open h hopen
    obtain ⟨-, hs⟩ := Option.ite_none_right_eq_some.mp hs
    have hserves' := serves_server hserves hs hinner hsynced.alone
    have hnearer := nearer_server hs hinner hsynced.alone
      (Server.orderly_of_reachable (server_reachable h))
    obtain ⟨server, -, rfl⟩ := serverStep_some hs
    exact ⟨rfl, rfl, rfl, rfl, hserves', hnearer⟩
  | send | broken | check | expired | eof | close | exit => cases hinner

theorem waiting_read {s₀ : State κ J} (h : Waiting loads write capacity s₀ s) {n : ℕ}
    (hs : step loads write capacity s (.read n) = some s') :
    NextAnswered loads write s₀ s' ∨ Waiting loads write capacity s₀ s' ∧
      Nearer (distance s') (distance s) := by
  have hreach := h.reachable.next (show PlainSends s (.read n) from trivial) hs
  obtain ⟨k, m, hsynced⟩ := synced_of_open h.reachable h.opened
  obtain ⟨⟨-, -, hpos, -, hle⟩, hs⟩ := Option.ite_none_right_eq_some.mp hs
  obtain rfl : afterRead loads s n = s' := Option.some.inj hs
  obtain ⟨k', hsynced', hcalls, ⟨hchecking, rfl⟩ | ⟨hchecking, rfl⟩⟩ := synced_read hsynced n
  · have hfired : (afterRead loads s n).fired = s.fired := by
      rw [hsynced'.fired, hcalls, hsynced.length_fired, ← hsynced.fired]
    refine .inr ⟨⟨hreach, hsynced'.answering.closed,
      ⟨h.serves.alive, h.serves.looping, h.serves.nudge⟩, hchecking,
      hcalls.trans h.calls, hfired.trans h.fired, ?_⟩, ?_⟩
    · rw [hfired, hcalls]
      exact h.left
    · refine nearer_iff.mpr (.inr ⟨rfl, .inr ⟨rfl, .inr ⟨rfl, .inl ?_⟩⟩⟩)
      simp only [distance, undelivered, afterRead, resume, List.length_drop]
      omega
  · refine .inl ⟨hchecking, hcalls.trans h.calls, ?_⟩
    rw [← h.calls, ← h.fired, ← hcalls]
    exact hsynced'.fired

theorem waiting_step {s₀ : State κ J} (h : Waiting loads write capacity s₀ s) (hinner : Inner s a)
    (hs : step loads write capacity s a = some s') :
    NextAnswered loads write s₀ s' ∨ Waiting loads write capacity s₀ s' ∧
      Nearer (distance s') (distance s) := by
  by_cases hread : ∃ n, a = .read n
  · obtain ⟨n, rfl⟩ := hread
    exact waiting_read h hs
  · have hflows := flows_step h.reachable h.opened h.serves hinner (fun n hn => hread ⟨n, hn⟩) hs
    have hplain : PlainSends s a := plainSends_of_ne_send fun r hr => by
      subst hr
      exact hinner
    refine .inr ⟨⟨h.reachable.next hplain hs, hflows.client ▸ h.opened, hflows.serves,
      hflows.checking.trans h.checking,
      hflows.calls.trans h.calls, hflows.fired.trans h.fired, ?_⟩, hflows.nearer⟩
    rw [hflows.fired, hflows.calls]
    exact h.left

/-- A call of `check` that waits in an open connection, with a call of `send` not answered yet, does
not wait in vain: in whatever order the pipes, the server and the reader take their steps, and with
whatever number of bytes in each, after finitely many of them it returns with the answer to the next
call; unless the server waits for room in its nudge socket. -/
theorem waits_not_in_vain (h : Reachable (step loads write capacity) PlainSends (init κ J) s)
    (hopen : s.client.closed = false) (hserves : Serves s) (hwait : s.checking = true)
    (hleft : s.fired.length < s.calls.length) :
    Inevitable (step loads write capacity) Inner
      (fun s' => Blocked capacity s' ∨ NextAnswered loads write s s') s := by
  refine inevitable_of_measure nearer_wf distance (Waiting loads write capacity s) (fun s' h' => ?_)
    (fun s' a s'' h' hinner hs => ?_) s ⟨h, hopen, hserves, hwait, rfl, rfl, hleft⟩
  · rcases exists_inner h' with hblocked | hmoves
    · exact .inl (.inl hblocked)
    · exact .inr hmoves
  · rcases waiting_step h' hinner hs with hnext | hgoes
    · exact .inl (.inr hnext)
    · exact .inr hgoes

theorem waits_not_in_vain_version :
    ∃ s : State ℕ Root, Reachable (step loadsNotFound fastWriter 1) PlainSends (init ℕ Root) s ∧
      s.requests = text "11 0 Gversion " ∧ s.checking = true ∧
      Inevitable (step loadsNotFound fastWriter 1) Inner
        (fun s' => Blocked 1 s' ∨ NextAnswered loadsNotFound fastWriter s s') s := by
  have hrun : ∃ s, exec (step loadsNotFound fastWriter 1) PlainSends (init ℕ Root)
      [.send ⟨text "G", text "version", [], 7⟩, .accept 14, .check] = some s ∧
      s.requests = text "11 0 Gversion " ∧ s.checking = true ∧ s.client.closed = false ∧
        s.alive = true ∧
      Server.ended s.server.main = false ∧ s.server.nudge = [] ∧ s.fired.length < s.calls.length :=
    exists_of_exec (by decide +kernel)
  obtain ⟨s, hexec, hrequests, hchecking, hopen, halive, hlooping, hnudge, hleft⟩ := hrun
  have hreach := reachable_of_exec hexec
  have hserves : Serves s := ⟨halive, hlooping, by rw [hnudge]; simp⟩
  exact ⟨s, hreach, hrequests, hchecking, waits_not_in_vain hreach hopen hserves hchecking hleft⟩

end Remote

end Xaprun
