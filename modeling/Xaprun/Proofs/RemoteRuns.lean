import Xaprun.Proofs.Remote
import Xaprun.Proofs.ServerRuns

/-! Runs of a client and its server: the calls of `send` are answered in order, each with the
result of its own request, and a caller does not wait in vain. -/

namespace Xaprun

open Frames Runs

namespace Remote

variable {κ J : Type} {loads : Bytes → Option J} {write : Writer} {capacity : ℕ} {s s' : State κ J}
  {a : Act κ}
  {k m : ℕ}

/-! A call of `send`. -/

theorem method_within {method : Bytes} (h : method <:+: text "GPUD") (hone : method.length = 1) :
    method ∈ [text "G", text "P", text "U", text "D"] := by
  obtain ⟨b, rfl⟩ := List.length_eq_one_iff.mp hone
  have hb : b ∈ text "GPUD" := h.subset (List.mem_singleton_self b)
  simp only [text, List.mem_map] at hb
  obtain ⟨c, hc, rfl⟩ := hb
  simp only [String.reduceToList, List.mem_cons, List.not_mem_nil, or_false] at hc
  rcases hc with rfl | rfl | rfl | rfl <;> decide

theorem message_eq (msgid : Bytes) (r : Client.Request κ) :
    Client.message msgid r.method r.target r.payload =
      Message.body ⟨0, msgid, r.method ++ r.target, r.payload⟩ := by
  simp [Client.message, Message.body, text, byte, space]

theorem send_plain {conn : Client.Connection κ} {r : Client.Request κ} {sent : Client.Sent κ}
    (hopen : conn.closed = false) (hplain : Plain conn.nextId r)
    (hsend : Client.send conn r.method r.target r.payload r.callback = .ok sent) :
    r.Valid ∧ sent = ⟨{ conn with
        pending := conn.pending.insert (dec conn.nextId) r.callback
        nextId := conn.nextId + 1 },
      frame (Message.body ⟨0, dec conn.nextId, r.method ++ r.target, r.payload⟩), []⟩ := by
  rcases Client.send_cases conn r.method r.target r.payload r.callback with
    ⟨-, heq⟩ | ⟨hclosed, -⟩ | ⟨-, written, heq⟩
  · rw [heq] at hsend
    cases hsend
  · rw [hopen] at hclosed
    cases hclosed
  · have hvalid : r.Valid := by
      by_contra hinvalid
      unfold Client.send at heq
      rw [hopen, if_neg Bool.false_ne_true] at heq
      split_ifs at heq with hmethod htarget
      · exact hinvalid ⟨method_within hmethod.1 hmethod.2, htarget, hplain.target_line,
          hplain.payload_line⟩
    obtain ⟨pending, hframe⟩ := Client.send_valid hopen hvalid 0
    refine ⟨hvalid, ?_⟩
    rw [heq] at hsend hframe
    obtain rfl := Except.ok.inj hsend
    have hwritten := congrArg Client.Sent.written (Except.ok.inj hframe)
    rw [Client.Sent.mk.injEq]
    exact ⟨rfl, hwritten, rfl⟩

theorem Answering.send {calls : List (Client.Request κ)} {todo : Bytes} {conn : Client.Connection κ}
    (h : Answering write calls k todo conn) (hk : k ≤ calls.length) (r : Client.Request κ) :
    Answering write (calls ++ [r]) k
      (todo ++ (reply write ⟨0, dec calls.length, r.method ++ r.target, r.payload⟩).bytes)
      { conn with
        pending := conn.pending.insert (dec conn.nextId) r.callback
        nextId := conn.nextId + 1 } where
  pending := by
    have hfresh : dec conn.nextId ∉ conn.pending := by
      intro hmem
      obtain ⟨e, he, hid⟩ := List.mem_map.mp (AList.mem_keys.mp hmem)
      obtain ⟨n, hn, hdec⟩ := id_of_slot (List.mem_of_mem_drop (h.pending.mem_iff.mp he))
      rw [hid, h.nextId] at hdec
      have := dec_injective hdec
      omega
    have hlen : (slots 0 calls).length = calls.length := by
      rw [← List.length_map (Sigma.snd), slots_callbacks, List.length_map]
    rw [AList.entries_insert_of_notMem hfresh, slots_append,
      List.drop_append_of_le_length (hlen ▸ hk), Nat.zero_add,
      h.nextId]
    exact (h.pending.cons _).trans (List.perm_append_singleton _ _).symm
  step := by
    have hlen := length_messages 0 calls
    rw [messages_append, List.drop_append_of_le_length (hlen ▸ hk), List.map_append, Nat.zero_add]
    exact inStep_of_reader (inStep_append h.step _) rfl rfl
  closed := h.closed
  nextId := by rw [List.length_append, h.nextId, List.length_singleton]

theorem Requested.append {calls : List (Client.Request κ)} (h : Requested calls)
    {r : Client.Request κ} (hvalid : r.Valid)
    (hplain : Plain calls.length r) : Requested (calls ++ [r]) where
  valid := by
    intro q hq
    rcases List.mem_append.mp hq with hq | hq
    · exact h.valid q hq
    · obtain rfl := List.mem_singleton.mp hq
      exact ⟨hvalid, hplain.direct⟩
  short := by
    intro m hm
    rw [messages_append] at hm
    rcases List.mem_append.mp hm with hm | hm
    · exact h.short m hm
    · obtain rfl := List.mem_singleton.mp hm
      rw [Nat.zero_add, ← message_eq]
      exact hplain.short

theorem Requested.messages {calls : List (Client.Request κ)} (h : Requested calls) :
    ∀ m ∈ Client.messages 0 0 calls, DirectMessage m ∧ ∀ b ∈ m.body, iscrlf b = false := fun m hm =>
  ⟨direct_messages h.valid 0 m hm,
    (Client.messages_plain 0 calls (fun r hr => (h.valid r hr).1) 0 m hm).2.2.2⟩

/-! The open connection. -/

/-- What the dispatcher will answer to the messages from the `m`-th on. -/
def toAnswer (write : Writer) (calls : List (Client.Request κ)) (m : ℕ) : Bytes :=
  Client.replies (((Client.messages 0 0 calls).drop m).map (reply write))

/-- The connection is open: the first `k` calls have been answered, and the dispatcher has dealt
with the first `m` of them. -/
structure Synced (loads : Bytes → Option J) (write : Writer) (s : State κ J) (k m : ℕ) : Prop where
  requested : Requested s.calls
  handled : k ≤ s.calls.length
  served : m ≤ s.calls.length
  fired : s.fired = (s.calls.take k).map fun r => (r.callback, answer loads write r)
  alone : s.server.Alone
  answering : Answering write s.calls k
    (s.responses ++ (s.server.outward 0 ++ toAnswer write s.calls m)) s.client
  unread : s.alive = true → ∀ i, s.server.connections.find 0 = some i →
    Unread i.readBuf (s.requests ++ s.sending) ((Client.messages 0 0 s.calls).drop m)
  checking : s.checking = true → Client.front s.client = .more s.client

theorem Synced.length_fired (h : Synced loads write s k m) : s.fired.length = k := by
  rw [h.fired, List.length_map, List.length_take, Nat.min_eq_left h.handled]

theorem Synced.callbacks (h : Synced loads write s k m) :
    (s.client.pending.entries.map Sigma.snd).Perm ((s.calls.drop k).map (·.callback)) := by
  have hslots : ((slots 0 s.calls).drop k).map Sigma.snd = (s.calls.drop k).map (·.callback) := by
    rw [slots_drop, slots_callbacks]
  exact hslots ▸ h.answering.pending.map Sigma.snd

theorem synced_init : Synced loads write (init κ J) 0 0 where
  requested := ⟨by simp [init], by simp [init, Client.messages]⟩
  handled := Nat.le_refl _
  served := Nat.le_refl _
  fired := rfl
  alone := Server.alone_init
  answering := ⟨List.Perm.refl _, .length rfl rfl, rfl, rfl⟩
  unread := by
    intro _ i hi
    obtain rfl : (⟨[], []⟩ : Connection) = i := Option.some.inj hi
    exact ⟨[], rfl, by simp, rfl, by simp⟩
  checking := by simp [init]

theorem synced_send (h : Synced loads write s k m) (hunlocked : s.unlocked = true)
    {r : Client.Request κ}
    (hplain : Plain s.client.nextId r) {sent : Client.Sent κ}
    (hsend : Client.send s.client r.method r.target r.payload r.callback = .ok sent) :
    Synced loads write
      { s with
        client := sent.conn
        sending := sent.written
        calls := s.calls ++ [r]
        fired := s.fired ++ sent.invoked.map fun f => (f.1, .dict f.2) } k m := by
  obtain ⟨hsending, hchecking⟩ : s.sending = [] ∧ s.checking = false := by
    simpa [State.unlocked] using hunlocked
  obtain ⟨hvalid, rfl⟩ := send_plain h.answering.closed hplain hsend
  rw [h.answering.nextId] at hplain
  have hmessages : (Client.messages 0 0 (s.calls ++ [r])).drop m =
      (Client.messages 0 0 s.calls).drop m ++
          [⟨0, dec s.calls.length, r.method ++ r.target, r.payload⟩] := by
    rw [messages_append, List.drop_append_of_le_length (by rw [length_messages]; exact h.served),
      Nat.zero_add]
  have hlen : (s.calls ++ [r]).length = s.calls.length + 1 := by simp
  exact {
    requested := h.requested.append hvalid hplain
    handled := by rw [hlen]; exact Nat.le_succ_of_le h.handled
    served := by rw [hlen]; exact Nat.le_succ_of_le h.served
    fired := by
      rw [List.map_nil, List.append_nil, List.take_append_of_le_length h.handled]
      exact h.fired
    alone := h.alone
    answering := by
      have hanswer : toAnswer write (s.calls ++ [r]) m = toAnswer write s.calls m ++
          (reply write ⟨0, dec s.calls.length, r.method ++ r.target, r.payload⟩).bytes := by
        rw [toAnswer, hmessages, List.map_append, toAnswer, replies_append]
        simp [Client.replies]
      have := h.answering.send h.handled r
      rwa [List.append_assoc, List.append_assoc, ← hanswer] at this
    unread := fun halive i hi => by
      have hunread := h.unread halive i hi
      rw [hsending, List.append_nil] at hunread
      rw [hmessages, h.answering.nextId]
      refine hunread.append ?_
      rw [← message_eq]
      exact hplain.short
    checking := fun hc => by
      rw [hchecking] at hc
      cases hc }

/-- A pass of `check` waits for more, or returns with one more call answered. -/
def Resumed (s s' : State κ J) (k' : ℕ) : Prop :=
  s'.calls = s.calls ∧ (s'.checking = true ∧ k' = s.fired.length ∨ s'.checking = false ∧
    k' = s.fired.length + 1)

theorem synced_resume (h : Synced loads write s k m) :
    ∃ k', Synced loads write (resume s (Client.check loads s.client [])) k' m ∧
      Resumed s (resume s (Client.check loads s.client [])) k' := by
  rcases answering_check loads h.answering h.requested.valid with
    ⟨conn', heq, hanswering, hfront, -⟩ | ⟨conn', r, heq, hr, hanswering⟩
  · rw [heq]
    exact ⟨k, ⟨h.requested, h.handled, h.served, by rw [resume, List.append_nil]; exact h.fired,
      h.alone, hanswering,
      h.unread, fun _ => hfront⟩, rfl, .inl ⟨rfl, h.length_fired.symm⟩⟩
  · rw [heq]
    have hlt := (List.getElem?_eq_some_iff.mp hr).1
    refine ⟨k + 1, ⟨h.requested, hlt, h.served, ?_, h.alone, hanswering, h.unread,
      by simp [resume]⟩, rfl,
      .inr ⟨rfl, by rw [h.length_fired]⟩⟩
    rw [resume, h.fired, List.take_add_one, hr, List.map_append]
    rfl

/-- The state after `_read` has returned `n` bytes. -/
def afterRead (loads : Bytes → Option J) (s : State κ J) (n : ℕ) : State κ J :=
  resume { s with responses := s.responses.drop n }
    (Client.check loads { s.client with readBuf := s.client.readBuf ++ s.responses.take n } [])

theorem synced_read (h : Synced loads write s k m) (n : ℕ) :
    ∃ k', Synced loads write (afterRead loads s n) k' m ∧ Resumed s (afterRead loads s n) k' := by
  have hread : Synced loads write
      { s with
        responses := s.responses.drop n
        client := { s.client with readBuf := s.client.readBuf ++ s.responses.take n }
        checking := false } k m :=
    { h with
      answering := by
        refine ⟨h.answering.pending, inStep_read ?_, h.answering.closed, h.answering.nextId⟩
        rw [← List.append_assoc, List.take_append_drop]
        exact h.answering.step
      checking := by simp }
  exact synced_resume hread

def consumed : Server.Act → ℕ
  | .connRead (some data) => data.length
  | _ => 0

def produced (s : Server) : Server.Act → Bytes
  | .connWrite (some n) => taken s 0 n
  | _ => []

/-- A step of the server changes the server and what is in the pipes, and nothing else. -/
theorem serverStep_some {b : Server.Act} (hs : serverStep write capacity s b = some s') :
    ∃ server, s.server.step write capacity b = some server ∧
      s' = { s with
        server
        requests := s.requests.drop (consumed b)
        responses := s.responses ++ produced s.server b } := by
  have hgo : (s.server.step write capacity b).map (fun server => { s with server }) = some s' →
    consumed b = 0 →
      produced s.server b = [] → ∃ server, s.server.step write capacity b = some server ∧
        s' = { s with
          server
          requests := s.requests.drop (consumed b)
          responses := s.responses ++ produced s.server b } := by
    intro hgo hin hout
    obtain ⟨server, hstep, rfl⟩ := Option.map_eq_some_iff.mp hgo
    exact ⟨server, hstep, by rw [hin, hout, List.drop_zero, List.append_nil]⟩
  cases b with
  | connRead data =>
    rcases data with - | - | ⟨b, bs⟩
    · exact hgo hs rfl rfl
    · exact hgo (Option.ite_none_right_eq_some.mp hs).2 rfl rfl
    · obtain ⟨_, hmap, rfl⟩ := Option.map_eq_some_iff.mp (Option.ite_none_right_eq_some.mp hs).2
      obtain ⟨server, hstep, rfl⟩ := Option.map_eq_some_iff.mp hmap
      refine ⟨server, hstep, ?_⟩
      rw [show produced s.server (.connRead (some (b :: bs))) = [] from rfl, List.append_nil]
      rfl
  | connWrite written =>
    cases written with
    | none => exact hgo (Option.ite_none_right_eq_some.mp hs).2 rfl rfl
    | some n =>
      obtain ⟨_, hmap, rfl⟩ := Option.map_eq_some_iff.mp (Option.ite_none_right_eq_some.mp hs).2
      obtain ⟨server, hstep, rfl⟩ := Option.map_eq_some_iff.mp hmap
      exact ⟨server, hstep, rfl⟩
  | select readable writable => exact hgo (Option.ite_none_right_eq_some.mp hs).2 rfl rfl
  | thread | shutdown | loop | interrupted | readNudge | dispatchResponses | endPass | execute
  | writeNudge
  | endDispatch | stop | join | joined | reap => exact hgo hs rfl rfl

theorem synced_quiet (h : Synced loads write s k m) {server : Server} (halone : server.Alone)
    (hout : server.outward 0 = s.server.outward 0)
    (hbuf : ∀ i', server.connections.find 0 = some i' → ∃ i, s.server.connections.find 0 = some i ∧
      i'.readBuf = i.readBuf) :
    Synced loads write { s with server } k m :=
  { h with
    alone := halone
    answering := by rw [hout]; exact h.answering
    unread := fun halive i' hi' => by
      obtain ⟨i, hi, heq⟩ := hbuf i' hi'
      rw [heq]
      exact h.unread halive i hi }

theorem synced_connRead (h : Synced loads write s k m) {server : Server} {data : Bytes}
    (halive : s.alive = true)
    (hnil : data ≠ []) (hahead : data <+: s.requests)
    (hs : s.server.step write capacity (.connRead (some data)) = some server) :
    ∃ m', Synced loads write { s with server, requests := s.requests.drop data.length } k m' := by
  obtain ⟨later, hlater⟩ := hahead
  have hmessages : ∀ msg ∈ (Client.messages 0 0 s.calls).drop m, DirectMessage msg ∧
      ∀ b ∈ msg.body, iscrlf b = false :=
    fun msg hmsg => h.requested.messages msg (List.mem_of_mem_drop hmsg)
  have hread : ∀ i, s.server.connections.find 0 = some i → _ := fun i hi => by
    have hunread := h.unread halive i hi
    rw [← hlater, List.append_assoc] at hunread
    exact hunread.read write hmessages
  obtain ⟨halone, i, i', hi, hi', hcarries⟩ :=
      Server.keeping_step h.alone hs (by simpa using hnil) (by simp) (by
    intro bytes j hbytes hj e he
    obtain rfl := Option.some.inj (Server.Act.connRead.inj hbytes)
    obtain ⟨n, -, heffects, -⟩ := hread j hj
    rw [heffects] at he
    obtain ⟨msg, -, rfl⟩ := List.mem_map.mp he
    exact ⟨_, rfl⟩)
  obtain ⟨n, hn, heffects, hunread⟩ := hread i hi
  rw [List.length_drop, length_messages] at hn
  have hserved := h.served
  generalize hout : server.outward 0 = out' at hcarries
  cases hcarries with
  | quiet hno => exact absurd rfl (hno data)
  | read _ hbuf =>
    -- the dispatcher has dealt with `n` more of the messages
    have hanswer : toAnswer write s.calls m =
      Server.toSend 0 (Server.received write 0 i.readBuf data).1 ++
        toAnswer write s.calls (m + n) := by
      rw [heffects, toSend_direct, toAnswer, toAnswer, ← replies_append, ← List.map_append,
        ← List.drop_drop,
        List.take_append_drop]
    refine ⟨m + n, { h with
      served := by
        change m + n ≤ s.calls.length
        omega
      alone := halone
      answering := ?_
      unread := fun _ j hj => ?_ }⟩
    · rw [hout, List.append_assoc, ← hanswer]
      exact h.answering
    · obtain rfl := Option.some.inj (hi'.symm.trans hj)
      rw [hbuf, ← hlater, List.drop_left, ← List.drop_drop]
      exact hunread

theorem synced_connWrite (h : Synced loads write s k m) {server : Server} {n : ℕ}
    (hs : s.server.step write capacity (.connWrite (some n)) = some server) :
    Synced loads write { s with server, responses := s.responses ++ taken s.server 0 n } k m := by
  obtain ⟨halone, i, i', hi, hi', hcarries⟩ :=
    Server.keeping_step h.alone hs (by simp) (by simp) (by simp)
  generalize hout : server.outward 0 = out' at hcarries
  cases hcarries with
  | quiet _ hno => exact absurd rfl (hno n)
  | wrote hbuf htaken =>
    refine { h with alone := halone, answering := ?_, unread := fun halive j hj => ?_ }
    · rw [taken, hi, Option.elim_some, List.append_assoc, hout,
        ← List.append_assoc (i.writeBuf.take n), ← htaken]
      exact h.answering
    · obtain rfl := Option.some.inj (hi'.symm.trans hj)
      rw [hbuf]
      exact h.unread halive i hi

theorem synced_server (h : Synced loads write s k m) (halive : s.alive = true) {b : Server.Act}
    (hs : serverStep write capacity s b = some s') : ∃ m', Synced loads write s' k m' := by
  have hopen := h.answering.closed
  have hgo : (s.server.step write capacity b).map (fun server => { s with server }) = some s' →
      (∀ data, b ≠ .connRead (some data)) → (∀ n, b ≠ .connWrite n) →
          ∃ m', Synced loads write s' k m' := by
    intro hgo hread hwrite
    obtain ⟨server, hstep, rfl⟩ := Option.map_eq_some_iff.mp hgo
    obtain ⟨halone, i, i', hi, hi', hcarries⟩ :=
      Server.keeping_step h.alone hstep (hread []) (hwrite none)
      (fun data _ hb => absurd hb (hread data))
    generalize hout : server.outward 0 = out' at hcarries
    cases hcarries with
    | quiet _ _ hbuf =>
      refine ⟨m, synced_quiet h halone hout fun j hj => ?_⟩
      obtain rfl := Option.some.inj (hi'.symm.trans hj)
      exact ⟨i, hi, hbuf⟩
    | read => exact absurd rfl (hread _)
    | wrote => exact absurd rfl (hwrite _)
  cases b with
  | connRead data =>
    rcases data with - | - | ⟨b, bs⟩
    · exact hgo hs (by simp) (by simp)
    · obtain ⟨⟨-, hclosed⟩, -⟩ := Option.ite_none_right_eq_some.mp hs
      rw [hopen] at hclosed
      cases hclosed
    · obtain ⟨hahead, hs⟩ := Option.ite_none_right_eq_some.mp hs
      obtain ⟨_, hmap, rfl⟩ := Option.map_eq_some_iff.mp hs
      obtain ⟨server, hstep, rfl⟩ := Option.map_eq_some_iff.mp hmap
      exact synced_connRead h halive (List.cons_ne_nil _ _) hahead hstep
  | connWrite written =>
    cases written with
    | none =>
      obtain ⟨hclosed, -⟩ := Option.ite_none_right_eq_some.mp hs
      rw [hopen] at hclosed
      cases hclosed
    | some n =>
      obtain ⟨-, hs⟩ := Option.ite_none_right_eq_some.mp hs
      obtain ⟨_, hmap, rfl⟩ := Option.map_eq_some_iff.mp hs
      obtain ⟨server, hstep, rfl⟩ := Option.map_eq_some_iff.mp hmap
      exact ⟨m, synced_connWrite h hstep⟩
  | select readable writable =>
    refine hgo ?_ (by simp) (by simp)
    unfold serverStep at hs
    dsimp only at hs
    split_ifs at hs
    exact hs
  | thread _ | shutdown | loop | interrupted | readNudge _ | dispatchResponses | endPass | execute _
  | writeNudge
  | endDispatch | stop | join | joined | reap => exact hgo hs (by simp) (by simp)

/-! The closed connection. -/

/-- The connection has been closed after the first `k` calls were answered. -/
structure Settled (loads : Bytes → Option J) (write : Writer) (s : State κ J) (k : ℕ) : Prop where
  handled : k ≤ s.calls.length
  answered : s.fired.take k = (s.calls.take k).map fun r => (r.callback, answer loads write r)
  closed : s.client.closed = true
  pending : s.client.pending = ∅
  told : (s.fired.drop k).Perm
    ((s.calls.drop k).map fun r => (r.callback, .dict Client.closedResult))

theorem Settled.keep (h : Settled loads write s k) (hcalls : s'.calls = s.calls)
    (hfired : s'.fired = s.fired)
    (hclosed : s'.client.closed = true) (hpending : s'.client.pending = ∅) :
    Settled loads write s' k where
  handled := hcalls ▸ h.handled
  answered := by rw [hfired, hcalls]; exact h.answered
  closed := hclosed
  pending := hpending
  told := by rw [hfired, hcalls]; exact h.told

theorem settled_resume (h : Settled loads write s k) :
    Settled loads write (resume s (Client.check loads s.client [])) k := by
  have hkept := (Client.keeps_check loads [] s.client).kept
  have hledger := hkept.ledger
  have hnone : s.client.callbacks = [] := by rw [Client.Connection.callbacks, h.pending]; rfl
  rw [hnone] at hledger
  have hempty := List.append_eq_nil_iff.mp hledger.symm.eq_nil
  have hinvoked : (Client.check loads s.client []).invoked = [] := List.map_eq_nil_iff.mp hempty.1
  refine h.keep rfl (by rw [resume, hinvoked, List.append_nil]) ?_ ?_
  · rcases hkept.closed with heq | ⟨hc, -⟩
    · exact heq.trans h.closed
    · exact hc
  · exact AList.ext (List.map_eq_nil_iff.mp hempty.2)

/-- A call of `send` on the closed connection: its callback is told at once. -/
theorem settled_send (h : Settled loads write s k) (r : Client.Request κ) {sending : Bytes} :
    Settled loads write
      { s with
        sending
        calls := s.calls ++ [r]
        fired := s.fired ++ [(r.callback, .dict Client.closedResult)] } k := by
  have hlen : k ≤ s.fired.length := by
    have := congrArg List.length h.answered
    have := h.handled
    simp only [List.length_take, List.length_map] at *
    omega
  exact {
    handled := by
      rw [List.length_append]
      exact Nat.le_add_right_of_le h.handled
    answered := by
      rw [List.take_append_of_le_length hlen, List.take_append_of_le_length h.handled]
      exact h.answered
    closed := h.closed
    pending := h.pending
    told := by
      rw [List.drop_append_of_le_length hlen, List.drop_append_of_le_length h.handled,
        List.map_append]
      exact h.told.append_right _ }

theorem settled_cleanUp (h : Settled loads write s k) : Settled loads write (cleanUp s) k := by
  refine h.keep rfl ?_ rfl rfl
  rw [cleanUp, Client.cleanup, h.pending]
  exact List.append_nil _

theorem settled_of_synced (h : Synced loads write s k m) : Settled loads write (cleanUp s) k where
  handled := h.handled
  answered := by
    rw [cleanUp, List.take_append_of_le_length h.length_fired.ge,
      List.take_of_length_le h.length_fired.le]
    exact h.fired
  closed := rfl
  pending := rfl
  told := by
    have htold := h.callbacks.map fun cb => ((cb, .dict Client.closedResult) : κ × Client.Result J)
    rw [List.map_map, List.map_map] at htold
    rw [cleanUp, List.drop_append_of_le_length h.length_fired.ge,
      List.drop_of_length_le h.length_fired.le]
    exact htold

/-! Every run. -/

/-- The connection is open and client and server are in step, or it is closed. -/
def Conversing (loads : Bytes → Option J) (write : Writer) (s : State κ J) : Prop :=
  (∃ k m, Synced loads write s k m) ∨ ∃ k, Settled loads write s k

theorem conversing_send (h : Conversing loads write s) {r : Client.Request κ}
    (hplain : PlainSends s (.send r))
    (hs : step loads write capacity s (.send r) = some s') : Conversing loads write s' := by
  obtain ⟨hunlocked, hs⟩ := Option.ite_none_right_eq_some.mp hs
  split at hs
  · obtain rfl := Option.some.inj hs
    exact h
  · rename_i sent hsend
    obtain rfl := Option.some.inj hs
    rcases h with ⟨k, m, h⟩ | ⟨k, h⟩
    · exact .inl ⟨k, m, synced_send h hunlocked hplain hsend⟩
    · rw [Client.send, if_pos h.closed] at hsend
      obtain rfl := Except.ok.inj hsend
      exact .inr ⟨k, settled_send h r⟩

theorem conversing_cleanUp (h : Conversing loads write s) : Conversing loads write (cleanUp s) := by
  rcases h with ⟨k, m, h⟩ | ⟨k, h⟩
  · exact .inr ⟨k, settled_of_synced h⟩
  · exact .inr ⟨k, settled_cleanUp h⟩

theorem conversing_step (hok : PlainSends s a) (hs : step loads write capacity s a = some s')
    (h : Conversing loads write s) : Conversing loads write s' := by
  cases a with
  | send r => exact conversing_send h hok hs
  | accept n =>
    obtain ⟨-, hs⟩ := Option.ite_none_right_eq_some.mp hs
    obtain rfl := Option.some.inj hs
    rcases h with ⟨k, m, h⟩ | ⟨k, h⟩
    · refine .inl ⟨k, m, { h with unread := fun halive i hi => ?_ }⟩
      rw [List.append_assoc, List.take_append_drop]
      exact h.unread halive i hi
    · exact .inr ⟨k, h.keep rfl rfl h.closed h.pending⟩
  | broken =>
    obtain ⟨hdead, hs⟩ := Option.ite_none_left_eq_some.mp hs
    obtain rfl := Option.some.inj hs
    rcases h with ⟨k, m, h⟩ | ⟨k, h⟩
    · exact .inl ⟨k, m, { h with unread := fun halive => absurd halive hdead }⟩
    · exact .inr ⟨k, h.keep rfl rfl h.closed h.pending⟩
  | check =>
    obtain ⟨-, hs⟩ := Option.ite_none_right_eq_some.mp hs
    obtain rfl := Option.some.inj hs
    rcases h with ⟨k, m, h⟩ | ⟨k, h⟩
    · obtain ⟨k', h', -⟩ := synced_resume h
      exact .inl ⟨k', m, h'⟩
    · exact .inr ⟨k, settled_resume h⟩
  | read n =>
    obtain ⟨⟨-, hopen, -⟩, hs⟩ := Option.ite_none_right_eq_some.mp hs
    obtain rfl := Option.some.inj hs
    rcases h with ⟨k, m, h⟩ | ⟨k, h⟩
    · obtain ⟨k', h', -⟩ := synced_read h n
      exact .inl ⟨k', m, h'⟩
    · rw [h.closed] at hopen
      cases hopen
  | expired =>
    obtain ⟨-, hs⟩ := Option.ite_none_right_eq_some.mp hs
    obtain rfl := Option.some.inj hs
    rcases h with ⟨k, m, h⟩ | ⟨k, h⟩
    · exact .inl ⟨k, m, { h with checking := by simp }⟩
    · exact .inr ⟨k, h.keep rfl rfl h.closed h.pending⟩
  | eof =>
    obtain ⟨-, hs⟩ := Option.ite_none_right_eq_some.mp hs
    obtain rfl := Option.some.inj hs
    exact conversing_cleanUp h
  | close =>
    obtain ⟨-, hs⟩ := Option.ite_none_right_eq_some.mp hs
    obtain rfl := Option.some.inj hs
    exact conversing_cleanUp h
  | server b =>
    obtain ⟨halive, hs⟩ := Option.ite_none_right_eq_some.mp hs
    rcases h with ⟨k, m, h⟩ | ⟨k, h⟩
    · obtain ⟨m', h'⟩ := synced_server h halive hs
      exact .inl ⟨k, m', h'⟩
    · obtain ⟨server, -, rfl⟩ := serverStep_some hs
      exact .inr ⟨k, h.keep rfl rfl h.closed h.pending⟩
  | exit =>
    obtain rfl := Option.some.inj hs
    rcases h with ⟨k, m, h⟩ | ⟨k, h⟩
    · exact .inl ⟨k, m, { h with unread := by simp }⟩
    · exact .inr ⟨k, h.keep rfl rfl h.closed h.pending⟩

theorem conversing_of_reachable
    (h : Reachable (step loads write capacity) PlainSends (init κ J) s) :
    Conversing loads write s :=
  h.invariant (.inl ⟨0, 0, synced_init⟩) fun _ _ _ hok hs hi => conversing_step hok hs hi

/-- Whatever the callers of the client, the pipes, the server and the signals do, in whatever order
and in whatever pieces the bytes arrive: the answers come in the order of the calls, each callback
is invoked once and with the result of its own request, and those that are pending when the
connection is closed are told so. -/
theorem answers_in_order (h : Reachable (step loads write capacity) PlainSends (init κ J) s) :
    ∃ k, Answered loads write s k := by
  rcases conversing_of_reachable h with ⟨k, m, h⟩ | ⟨k, h⟩
  · refine ⟨k, h.handled, ?_, fun _ => ⟨h.length_fired, h.callbacks⟩, fun hclosed => ?_⟩
    · rw [List.take_of_length_le h.length_fired.le]
      exact h.fired
    · rw [h.answering.closed] at hclosed
      cases hclosed
  · refine ⟨k, h.handled, h.answered, fun hopen => ?_, fun _ => ⟨h.pending, h.told⟩⟩
    rw [h.closed] at hopen
    cases hopen

/-- `json.loads`, of the one text that the dispatcher sends. -/
def loadsNotFound (body : Bytes) : Option Root :=
  if body = fastWriter ⟨0, text "Not found"⟩ then some ⟨0, text "Not found"⟩ else none

/-- The version is asked for, then a target that is not there; the connection is closed between the
two answers. -/
def versionAndOther : List (Act ℕ) :=
  [.send ⟨text "G", text "version", [], 7⟩, .accept 14,
    .send ⟨text "G", text "other", [], 8⟩, .accept 5,
    .server .loop, .server (.select [0] []),
      .server (.connRead (some (text "11 0 Gversion 9 1 G"))),
    .server (.execute 0), .server .writeNudge, .server .endDispatch, .accept 6, .server .endPass,
      .server .loop,
    .server (.select [] []), .server (.readNudge 1), .server .dispatchResponses, .server .endPass,
      .server .loop,
    .server (.select [0] [0]), .server (.connRead (some (text "other "))), .server (.execute 0),
      .server .writeNudge,
    .server .endDispatch, .server (.connWrite (some 8)), .check, .read 3, .read 5, .close]

theorem answers_in_order_versionAndOther :
    ∃ s : State ℕ Root, Reachable (step loadsNotFound fastWriter 2) PlainSends (init ℕ Root) s ∧
      s.fired = [(7, .dict ⟨1, version⟩), (8, .dict Client.closedResult)] ∧
        ∃ k, Answered loadsNotFound fastWriter s k := by
  have hrun : ∃ s, exec (step loadsNotFound fastWriter 2) PlainSends (init ℕ Root) versionAndOther =
    some s ∧
      s.fired = [(7, .dict ⟨1, version⟩), (8, .dict Client.closedResult)] :=
    exists_of_exec (by decide +kernel)
  obtain ⟨s, hexec, hfired⟩ := hrun
  have hreach := reachable_of_exec hexec
  exact ⟨s, hreach, hfired, answers_in_order hreach⟩

end Remote

end Xaprun
