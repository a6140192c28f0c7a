import Xaprun.Spec.Pipes

/-! Client and server can block each other. They do not as long as every write of the server that
does not fit in its pipe begins when all that the client has still to write fits in the other one;
and from the first write that begins otherwise there is a run to a state in which both wait. -/

namespace Xaprun.Pipes

open Frames Runs

variable {κ : Type} {write : Writer} {capacity requestCap responseCap : ℕ}
  {s s' : State κ} {a : Act}

/-! One step. -/

/-- A step of the server reads from the request pipe, and not while it writes. -/
theorem serverStep_cases {b : Server.Act}
    (h : serverStep write capacity responseCap s b = some s') :
    ∃ server n, s' = { s with server, requests := s.requests.drop n } ∧
      (s.writing = none ∨ n = 0) := by
  have hgo : ∀ {t : State κ}, ((s.server.step write capacity b).map fun server =>
    { s with server }) = some t →
      ∃ server, t = { s with server } := by
    intro t ht
    obtain ⟨server, -, rfl⟩ := Option.map_eq_some_iff.mp ht
    exact ⟨server, rfl⟩
  have hquiet : ∀ {t : State κ}, (∃ server, t = { s with server }) →
      ∃ server n, t = { s with server, requests := s.requests.drop n } ∧
          (s.writing = none ∨ n = 0) := by
    rintro t ⟨server, rfl⟩
    exact ⟨server, 0, by rw [List.drop_zero], .inr rfl⟩
  unfold serverStep at h
  dsimp only at h
  cases b with
  | thread b => exact hquiet (hgo h)
  | shutdown => exact hquiet (hgo h)
  | connWrite written => cases h
  | select readable writable =>
    dsimp only at h
    split_ifs at h with hc
    exact hquiet (hgo h)
  | connRead data =>
    cases data with
    | none =>
      dsimp only at h
      split_ifs at h with hc
      exact hquiet (hgo h)
    | some data =>
      dsimp only at h
      split_ifs at h with hc
      obtain ⟨t, ht, rfl⟩ := Option.map_eq_some_iff.mp h
      obtain ⟨server, rfl⟩ := hgo ht
      exact ⟨server, data.length, rfl, .inl hc.1⟩
  | _ =>
    dsimp only at h
    split_ifs at h with hc
    exact hquiet (hgo h)

/-- What a step can do to the pipes and to the two writes. -/
inductive Moves (requestCap responseCap : ℕ) (s : State κ) : Act → State κ → Prop
  | refused {r : Client.Request κ} {calls : List (Client.Request κ)}
      {e : Client.Raised} : s.sending = [] →
      s.calls = r :: calls → Client.send s.client r.method r.target r.payload r.callback =
        .error e →
      Moves requestCap responseCap s .send { s with calls }
  | sent {r : Client.Request κ} {calls : List (Client.Request κ)}
      {sent : Client.Sent κ} : s.sending = [] →
      s.calls = r :: calls → Client.send s.client r.method r.target r.payload r.callback =
        .ok sent →
      Moves requestCap responseCap s .send { s with
        client := sent.conn, sending := sent.written, calls }
  | accepted {n : ℕ} : 0 < n → n ≤ s.sending.length → s.requests.length + n ≤ requestCap →
      Moves requestCap responseCap s (.accept n)
        { s with requests := s.requests ++ s.sending.take n, sending := s.sending.drop n }
  | served {b : Server.Act} {server : Server} {n : ℕ} : s.writing = none ∨ n = 0 →
      Moves requestCap responseCap s (.server b) { s with server, requests := s.requests.drop n }
  | began {buf : Bytes} : s.writing = none → toWrite s.server = some buf →
      Moves requestCap responseCap s .beginWrite { s with writing := some buf }
  | flowed {n : ℕ} {rest : Bytes} : s.writing = some rest → 0 < n → n ≤ rest.length →
      s.responses.length + n ≤ responseCap →
      Moves requestCap responseCap s (.flow n)
        { s with responses := s.responses ++ rest.take n, writing := some (rest.drop n) }
  | ended {server : Server} : s.writing = some [] →
      Moves requestCap responseCap s .endWrite { s with server, writing := none }

theorem moves_of_step (h : step write capacity requestCap responseCap s a = some s') :
    Moves requestCap responseCap s a s' := by
  cases a with
  | send =>
    simp only [step] at h
    cases hcalls : s.calls with
    | nil => simp [hcalls] at h
    | cons r calls =>
      rw [hcalls] at h
      dsimp only at h
      split_ifs at h with hidle
      cases hsend : Client.send s.client r.method r.target r.payload r.callback with
      | error e =>
        rw [hsend] at h
        obtain rfl := Option.some.inj h
        exact .refused hidle hcalls hsend
      | ok sent =>
        rw [hsend] at h
        obtain rfl := Option.some.inj h
        exact .sent hidle hcalls hsend
  | accept n =>
    simp only [step] at h
    split_ifs at h with hc
    obtain rfl := Option.some.inj h
    exact .accepted hc.1 hc.2.1 hc.2.2
  | server b =>
    obtain ⟨server, n, rfl, hn⟩ := serverStep_cases h
    exact .served hn
  | beginWrite =>
    simp only [step] at h
    split_ifs at h with hidle
    obtain ⟨buf, hbuf, rfl⟩ := Option.map_eq_some_iff.mp h
    exact .began hidle hbuf
  | flow n =>
    simp only [step] at h
    cases hw : s.writing with
    | none => simp [hw] at h
    | some rest =>
      rw [hw] at h
      dsimp only at h
      split_ifs at h with hc
      obtain rfl := Option.some.inj h
      exact .flowed hw hc.1 hc.2.1 hc.2.2
  | endWrite =>
    simp only [step] at h
    split_ifs at h with hw
    obtain ⟨buf, -, h⟩ := Option.bind_eq_some_iff.mp h
    obtain ⟨server, -, rfl⟩ := Option.map_eq_some_iff.mp h
    exact .ended hw

/-! What the client has still to write. -/

theorem left_refused {r : Client.Request κ} {calls : List (Client.Request κ)} {e : Client.Raised}
    (hcalls : s.calls = r :: calls)
    (h : Client.send s.client r.method r.target r.payload r.callback = .error e) :
    left { s with calls } = left s := by
  simp only [left, hcalls, toSend, h]

theorem left_sent {r : Client.Request κ} {calls : List (Client.Request κ)} {sent : Client.Sent κ}
    (hidle : s.sending = [])
    (hcalls : s.calls = r :: calls)
    (h : Client.send s.client r.method r.target r.payload r.callback = .ok sent) :
    left { s with client := sent.conn, sending := sent.written, calls } = left s := by
  simp only [left, hcalls, hidle, toSend, h, List.length_append, List.length_nil, Nat.zero_add]

theorem left_accepted {n : ℕ} (h : n ≤ s.sending.length) :
    (s.requests ++ s.sending.take n).length + left { s with
      requests := s.requests ++ s.sending.take n, sending := s.sending.drop n } =
      s.requests.length + left s := by
  simp only [left, List.length_append, List.length_take, List.length_drop]
  omega

/-! What holds in every run, and in those that leave room. -/

structure Bounded (requestCap responseCap : ℕ) (s : State κ) : Prop where
  requests : s.requests.length ≤ requestCap
  responses : s.responses.length ≤ responseCap

theorem Bounded.moves (h : Bounded requestCap responseCap s)
    (hm : Moves requestCap responseCap s a s') :
    Bounded requestCap responseCap s' := by
  cases hm with
  | refused | sent | began | ended => exact ⟨h.requests, h.responses⟩
  | accepted hpos hlen hroom =>
    refine ⟨?_, h.responses⟩
    rw [List.length_append, List.length_take]
    omega
  | served =>
    refine ⟨?_, h.responses⟩
    have := h.requests
    rw [List.length_drop]
    omega
  | flowed hw hpos hlen hroom =>
    refine ⟨h.requests, ?_⟩
    rw [List.length_append, List.length_take]
    omega

/-- A write under way fits in its pipe, or the client's bytes in the other one. -/
def Safe (requestCap responseCap : ℕ) (s : State κ) : Prop :=
  ∀ rest, s.writing = some rest →
    s.responses.length + rest.length ≤ responseCap ∨ s.requests.length + left s ≤ requestCap

theorem Safe.moves (h : Safe requestCap responseCap s) (hok : Roomy requestCap responseCap s a)
    (hm : Moves requestCap responseCap s a s') : Safe requestCap responseCap s' := by
  intro rest hrest
  cases hm with
  | refused hidle hcalls hsend => exact left_refused hcalls hsend ▸ h rest hrest
  | sent hidle hcalls hsend => exact left_sent hidle hcalls hsend ▸ h rest hrest
  | accepted hpos hlen hroom =>
    rw [left_accepted hlen]
    exact h rest hrest
  | served hn =>
    -- nothing is read while a write is under way
    rcases hn with hn | rfl
    · rw [hn] at hrest
      cases hrest
    · exact h rest hrest
  | began hidle hbuf =>
    obtain rfl := Option.some.inj hrest
    exact hok rfl _ hbuf
  | flowed hw hpos hlen hroom =>
    obtain rfl := Option.some.inj hrest
    refine (h _ hw).imp (fun hfits => ?_) id
    rw [List.length_append, List.length_take, List.length_drop]
    omega
  | ended => cases hrest

theorem Safe.not_blocked (h : Safe requestCap responseCap s) :
    ¬ (ClientBlocked requestCap s ∧ ServerBlocked responseCap s) := by
  rintro ⟨⟨hsending, hfull⟩, rest, hw, hrest, hfull'⟩
  have hpos := List.length_pos_iff.mpr hsending
  have hpos' := List.length_pos_iff.mpr hrest
  rcases h rest hw with hfits | hfits
  · omega
  · unfold left at hfits
    omega

/-! The way to a state in which both wait. -/

section Blocking

variable (write capacity requestCap responseCap)

theorem reachable_accept {n : ℕ} (hlen : n ≤ s.sending.length)
    (hroom : s.requests.length + n ≤ requestCap) :
    Reachable (step write capacity requestCap responseCap) free s
      { s with requests := s.requests ++ s.sending.take n, sending := s.sending.drop n } := by
  by_cases hn : n = 0
  · subst hn
    simpa using Reachable.start
  · apply Reachable.start.next (a := .accept n) trivial
    simp only [step]
    rw [if_pos ⟨Nat.pos_of_ne_zero hn, hlen, hroom⟩]

theorem reachable_flow {n : ℕ} {rest : Bytes} (hw : s.writing = some rest) (hlen : n ≤ rest.length)
    (hroom : s.responses.length + n ≤ responseCap) :
    Reachable (step write capacity requestCap responseCap) free s
      { s with responses := s.responses ++ rest.take n, writing := some (rest.drop n) } := by
  by_cases hn : n = 0
  · subst hn
    simpa [← hw] using Reachable.start
  · apply Reachable.start.next (a := .flow n) trivial
    simp only [step, hw]
    rw [if_pos ⟨Nat.pos_of_ne_zero hn, hlen, hroom⟩]

/-- The pipe is filled by the write under way. -/
theorem exists_filled (hle : s.requests.length ≤ requestCap)
    (hmore : requestCap < s.requests.length + s.sending.length) :
    ∃ t, Reachable (step write capacity requestCap responseCap) free s t ∧
      ClientBlocked requestCap t ∧
      t.writing = s.writing ∧ t.responses = s.responses := by
  have hfill := reachable_accept write capacity requestCap responseCap
    (show requestCap - s.requests.length ≤ s.sending.length by omega) (by omega)
  refine ⟨_, hfill, ⟨?_, ?_⟩, rfl, rfl⟩
  · apply List.ne_nil_of_length_pos
    rw [List.length_drop]
    omega
  · rw [List.length_append, List.length_take]
    omega

/-- A client that has to write more than fits goes on sending until it waits. The induction is on
the calls of `send`. -/
theorem exists_client_blocked (calls : List (Client.Request κ)) : ∀ s : State κ, s.calls = calls →
    s.requests.length ≤ requestCap → requestCap < s.requests.length + left s →
    ∃ t, Reachable (step write capacity requestCap responseCap) free s t ∧
      ClientBlocked requestCap t ∧
      t.writing = s.writing ∧ t.responses = s.responses := by
  induction calls with
  | nil =>
    intro s hcalls hle hlt
    simp only [left, hcalls, toSend, List.length_nil, Nat.add_zero] at hlt
    exact exists_filled write capacity requestCap responseCap hle hlt
  | cons r calls ih =>
    intro s hcalls hle hlt
    by_cases hmore : requestCap < s.requests.length + s.sending.length
    · exact exists_filled write capacity requestCap responseCap hle hmore
    · -- all of the write is accepted, and the next call is made
      have haccept := reachable_accept write capacity requestCap responseCap le_rfl
        (Nat.le_of_not_lt hmore)
      have hleft := left_accepted (s := s) le_rfl
      have hle' : (s.requests ++ s.sending.take s.sending.length).length ≤ requestCap := by
        rw [List.length_append, List.length_take]
        omega
      rw [List.drop_length] at haccept hleft
      generalize s.requests ++ s.sending.take s.sending.length = requests at haccept hleft hle'
      generalize hs₁ : ({ s with requests, sending := [] } : State κ) = s₁ at haccept hleft
      have hidle : s₁.sending = [] := by rw [← hs₁]
      have hcalls₁ : s₁.calls = r :: calls := by rw [← hs₁]; exact hcalls
      have hrequests : s₁.requests = requests := by rw [← hs₁]
      have hsame : s₁.writing = s.writing ∧ s₁.responses = s.responses := by
        rw [← hs₁]; exact ⟨rfl, rfl⟩
      have hnext : ∀ s₂ : State κ, step write capacity requestCap responseCap s₁ .send = some s₂ →
        s₂.calls = calls →
          s₂.requests = s₁.requests → left s₂ = left s₁ → s₂.writing = s₁.writing →
            s₂.responses = s₁.responses →
          ∃ t, Reachable (step write capacity requestCap responseCap) free s t ∧
            ClientBlocked requestCap t ∧
            t.writing = s.writing ∧ t.responses = s.responses := by
        intro s₂ hstep hcalls₂ hreq hl hw hresp
        obtain ⟨t, hreach, hblocked, htw, htr⟩ :=
          ih s₂ hcalls₂ (by rw [hreq, hrequests]; exact hle')
          (by rw [hreq, hl, hrequests]; omega)
        exact ⟨t, (haccept.next trivial hstep).trans hreach, hblocked, htw.trans (hw.trans hsame.1),
          htr.trans (hresp.trans hsame.2)⟩
      cases hsend : Client.send s₁.client r.method r.target r.payload r.callback with
      | error e =>
        refine hnext { s₁ with calls } ?_ rfl rfl (left_refused hcalls₁ hsend) rfl rfl
        simp only [step, hcalls₁, hidle, if_true, hsend]
      | ok sent =>
        refine hnext { s₁ with client := sent.conn, sending := sent.written, calls } ?_ rfl rfl
          (left_sent hidle hcalls₁ hsend) rfl rfl
        simp only [step, hcalls₁, hidle, if_true, hsend]

/-- From a write that leaves no room, both come to wait. -/
theorem exists_both_blocked {buf : Bytes} (hb : Bounded requestCap responseCap s)
    (hw : s.writing = some buf)
    (hresponse : responseCap < s.responses.length + buf.length)
    (hrequest : requestCap < s.requests.length + left s) :
    ∃ t, Reachable (step write capacity requestCap responseCap) free s t ∧
      ClientBlocked requestCap t ∧ ServerBlocked responseCap t := by
  have hroom := hb.responses
  have hflow := reachable_flow write capacity requestCap responseCap hw
    (show responseCap - s.responses.length ≤ buf.length by omega) (by omega)
  obtain ⟨t, hreach, hblocked, htw, htr⟩ :=
    exists_client_blocked write capacity requestCap responseCap _
    { s with
      responses := s.responses ++ buf.take (responseCap - s.responses.length)
      writing := some (buf.drop (responseCap - s.responses.length)) } rfl hb.requests hrequest
  refine ⟨t, hflow.trans hreach, hblocked, _, htw, ?_, ?_⟩
  · apply List.ne_nil_of_length_pos
    rw [List.length_drop]
    omega
  · rw [htr, List.length_append, List.length_take]
    omega

end Blocking

/-- In every run in which each write of the server begins with room for it in its pipe, or for all
that the client has still to write in the other one, client and server are never blocked at the
same time. A write that begins otherwise can end with both blocked. -/
theorem not_both_blocked (write : Writer) (capacity requestCap responseCap : ℕ)
    (calls : List (Client.Request κ)) :
    (∀ s, Reachable (step write capacity requestCap responseCap) (Roomy requestCap responseCap)
      (init calls) s →
      ¬ (ClientBlocked requestCap s ∧ ServerBlocked responseCap s)) ∧
    ∀ s s', Reachable (step write capacity requestCap responseCap) free (init calls) s →
      step write capacity requestCap responseCap s .beginWrite = some s' →
      ¬ Roomy requestCap responseCap s .beginWrite →
      ∃ t, Reachable (step write capacity requestCap responseCap) free s' t ∧
        ClientBlocked requestCap t ∧ ServerBlocked responseCap t := by
  refine ⟨fun s h => ?_, fun s s' h hstep hfull => ?_⟩
  · have hsafe : Safe requestCap responseCap s := by
      refine h.invariant ?_ fun s a s' hok hs hi => hi.moves hok (moves_of_step hs)
      intro rest hrest
      cases hrest
    exact hsafe.not_blocked
  · have hbounded : Bounded requestCap responseCap s :=
      h.invariant ⟨Nat.zero_le _, Nat.zero_le _⟩ fun s a s' _ hs hi => hi.moves (moves_of_step hs)
    have hmoves := moves_of_step hstep
    have hbounded' := hbounded.moves hmoves
    cases hmoves with
    | @began buf hidle hbuf =>
      have hroom : ¬ (s.responses.length + buf.length ≤ responseCap ∨
          s.requests.length + left s ≤ requestCap) := by
        intro hroom
        apply hfull
        intro _ buf' hbuf'
        obtain rfl := Option.some.inj (hbuf.symm.trans hbuf')
        exact hroom
      rw [not_or, Nat.not_le, Nat.not_le] at hroom
      exact exists_both_blocked write capacity requestCap responseCap hbounded' rfl hroom.1 hroom.2

/-- Three requests for the version, and the run in which the server is about to answer the first. -/
def versions : List (Client.Request Unit) := List.replicate 3 ⟨text "G", text "version", [], ()⟩

def answering : List Act :=
  [.send, .accept 14, .server .loop, .server (.select [0] []),
    .server (.connRead (some (text "11 0 Gversion "))),
    .server (.execute 0), .server .writeNudge, .server .endDispatch, .server .endPass,
      .server .loop,
    .server (.select [] []), .server (.readNudge 1), .server .dispatchResponses, .server .endPass,
      .server .loop,
    .server (.select [] [0])]

/-- With eight bytes of room the answer is written, with one byte it is not. -/
theorem not_both_blocked_versions :
    (∃ s, Reachable (step (fun _ => []) 1 14 8) (Roomy 14 8) (init versions) s ∧
      s.responses = text "6 0 S0.1" ∧
      s.writing = none ∧ ¬ (ClientBlocked 14 s ∧ ServerBlocked 8 s)) ∧
    ∃ s s', Reachable (step (fun _ => []) 1 14 1) free (init versions) s ∧
      step (fun _ => []) 1 14 1 s .beginWrite = some s' ∧
      ∃ t, Reachable (step (fun _ => []) 1 14 1) free s' t ∧ ClientBlocked 14 t ∧
        ServerBlocked 1 t := by
  have hroom : ∃ s, exec (step (fun _ => []) 1 14 8) (Roomy 14 8) (init versions)
      (answering ++ [.beginWrite, .flow 8, .endWrite]) = some s ∧ s.responses = text "6 0 S0.1" ∧
          s.writing = none :=
    ⟨_, rfl, rfl, rfl⟩
  have hfull : ∃ s s', exec (step (fun _ => []) 1 14 1) free (init versions) answering = some s ∧
      step (fun _ => []) 1 14 1 s .beginWrite = some s' ∧
        toWrite s.server = some (text "6 0 S0.1") ∧
      s.responses.length = 0 ∧ s.requests.length + left s = 28 :=
    ⟨_, _, rfl, rfl, rfl, rfl, rfl⟩
  obtain ⟨s, hs, hresponses, hidle⟩ := hroom
  obtain ⟨u, u', hu, hbegin, hbuf, hempty, hleft⟩ := hfull
  refine ⟨⟨s, reachable_of_exec hs, hresponses, hidle, ?_⟩, u, u', reachable_of_exec hu, hbegin, ?_⟩
  · exact (not_both_blocked (fun _ => []) 1 14 8 versions).1 s (reachable_of_exec hs)
  · apply (not_both_blocked (fun _ => []) 1 14 1 versions).2 u u' (reachable_of_exec hu) hbegin
    intro hroomy
    have hsize : (text "6 0 S0.1").length = 8 := rfl
    rcases hroomy rfl _ hbuf with h | h
    · omega
    · omega

/-- The same three requests: the server waits with seven bytes of its answer to the first, the
second fills the other pipe, and the client waits with the third. -/
theorem versions_block : ∃ s, exec (step (fun _ => []) 1 14 1) free (init versions)
      (answering ++ [.beginWrite, .flow 1, .send, .accept 14, .send]) = some s ∧
    ClientBlocked 14 s ∧ ServerBlocked 1 s := by
  have hrun : ∃ s, exec (step (fun _ => []) 1 14 1) free (init versions)
      (answering ++ [.beginWrite, .flow 1, .send, .accept 14, .send]) = some s ∧
      s.sending = text "11 2 Gversion " ∧ s.requests = text "11 1 Gversion " ∧
      s.writing = some (text " 0 S0.1") ∧ s.responses = text "6" :=
    ⟨_, rfl, rfl, rfl, rfl, rfl⟩
  obtain ⟨s, hs, hsending, hrequests, hwriting, hresponses⟩ := hrun
  refine ⟨s, hs, ⟨?_, ?_⟩, text " 0 S0.1", hwriting, by decide, ?_⟩
  · rw [hsending]
    decide
  · rw [hrequests]
    decide
  · rw [hresponses]
    decide

end Xaprun.Pipes
