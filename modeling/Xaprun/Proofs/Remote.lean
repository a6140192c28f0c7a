import Xaprun.Proofs.ClientServer
import Xaprun.Proofs.Decoding
import Xaprun.Proofs.Routing
import Xaprun.Sanity.Remote

/-! Client and server together. The bytes on the way from the client are the frames of the
requests that the dispatcher has not seen, those on the way back and in the buffer of the client
are the frames of the answers it has not handled. -/

namespace Xaprun

open Frames Runs

/-! The server's side: what the dispatcher makes of the bytes of a client. -/

theorem scan_unfinished {cap : Bool} (hcap : cap = false) (fs : List Frame) : ∀ (o : ℕ) (r : Bytes),
    ∀ f ∈ (scan cap o fs r).left.head?, (scan cap o fs r).rest.length < f.bytes.length := by
  subst hcap
  induction fs with
  | nil => intro o r f hf; simp [scan] at hf
  | cons g fs ih =>
    intro o r f hf
    rcases scan_cases false o g fs r with ⟨-, he⟩ | ⟨-, h, -⟩ | ⟨hws, hlt, -, he⟩ | ⟨-, -, he⟩
    · rw [he] at hf ⊢
      obtain rfl := Option.some.inj hf
      have := (g.trim r.length).bytes_length
      simp only [List.length_nil]
      omega
    · cases h
    · rw [he] at hf ⊢
      obtain rfl := Option.some.inj hf
      rw [g.bare_bytes_length, List.length_drop]
      omega
    · rw [he] at hf ⊢
      exact ih _ _ f hf

theorem readChunk_plain (c : ℤ) {fs : List Frame} {readBuf data future : Bytes}
    (hws : ∀ f ∈ fs, f.ws = [])
    (hline : ∀ b ∈ stream fs [], iscrlf b = false) (h : readBuf ++ data ++ future = stream fs []) :
    Served c (readChunk c readBuf data).1 (scan false 0 fs (readBuf ++ data)).bodies ∧
      (readChunk c readBuf data).2 = (scan false 0 fs (readBuf ++ data)).rest := by
  have hno : ¬ (scan true 0 fs (readBuf ++ data)).resync := fun hs => by
    obtain ⟨b, hb, hcr⟩ := List.any_eq_true.mp hs.2
    have hmem := (scan_rest_suffix true fs 0 (readBuf ++ data)).subset hb
    rw [hline b (h ▸ List.mem_append_left _ hmem)] at hcr
    cases hcr
  have hscan := dispatchAll_scan c ((readBuf ++ data).length + 1) (by simp) h (by omega) hno
  rw [scanRead_plain hws] at hscan
  exact hscan

namespace Remote

/-- The answer of the dispatcher to a message that is not for a worker. -/
def reply (write : Writer) (m : Message) : Client.Reply :=
  if m.target = text "Gversion" then ⟨m.msgid, byte 'S', version⟩
  else ⟨m.msgid, byte 'E', write ⟨0, text "Not found"⟩⟩

/-- A message that the dispatcher answers itself. -/
structure DirectMessage (m : Message) : Prop where
  connection : m.connectionNum = 0
  msgid : space ∉ m.msgid
  space : space ∉ m.target
  method : ∃ method target, m.target = method :: target ∧
    (method = byte 'G' ∨ method = byte 'P' ∨ method = byte 'U' ∨ method = byte 'D') ∧
    (method = byte 'G' ∨ method = byte 'U' → ¬ text "db/" <+: target)

theorem routeMessage_direct (write : Writer) {m : Message} (h : DirectMessage m) {buf : Bytes}
    {pos msglen : ℕ}
    (hbuild : buildMessage 0 buf pos msglen = .ok m) :
    routeMessage write 0 buf pos msglen = .sendResponse 0 (reply write m).bytes := by
  obtain ⟨n, msgid, _, payload⟩ := m
  obtain ⟨method, target, rfl, hmethod, hdirect⟩ := h.method
  obtain rfl : n = 0 := h.connection
  have hdb : method = byte 'G' ∨ method = byte 'U' → ∀ rest, target ≠ text "db/" ++ rest :=
    fun hm rest heq => hdirect hm ⟨rest, heq.symm⟩
  have hversion : method :: target = text "Gversion" ↔
      method = byte 'G' ∧ target = text "version" := by
    rw [show text "Gversion" = byte 'G' :: text "version" from rfl, List.cons.injEq]
  have hnotFound : method :: target ≠ text "Gversion" →
      Effect.sendResponse 0 (sendErrorResponse write ⟨0, msgid, method :: target, payload⟩
        (text "Not found")) =
        .sendResponse 0 (reply write ⟨0, msgid, method :: target, payload⟩).bytes := by
    intro hne
    rw [reply, if_neg hne]
    rfl
  unfold routeMessage
  rw [hbuild]
  dsimp only
  by_cases hG : method = byte 'G'
  · rw [if_pos hG]
    by_cases htarget : target = text "version"
    · rw [if_pos htarget, reply, if_pos (hversion.mpr ⟨hG, htarget⟩)]
      rfl
    · have hne := mt (fun h => (hversion.mp h).2) htarget
      rw [if_neg htarget]
      rcases db_cases target with ⟨rest, -, -, hrest, -⟩ | ⟨-, ⟨c₀, heq⟩ | ⟨c₀, c₁, cs, hc₀, heq⟩⟩
      · exact absurd hrest (hdb (.inl hG) rest)
      · rw [heq]
        exact hnotFound hne
      · rw [heq]
        dsimp only
        rw [if_neg hc₀]
        exact hnotFound hne
  · have hne := mt (fun h => (hversion.mp h).1) hG
    rw [if_neg hG]
    by_cases hP : method = byte 'P'
    · rw [if_pos hP]
      exact hnotFound hne
    · rw [if_neg hP]
      by_cases hU : method = byte 'U'
      · rw [if_pos hU]
        rcases db_cases target with ⟨rest, -, -, hrest, -⟩ | ⟨-, ⟨c₀, heq⟩ | ⟨c₀, c₁, cs, hc₀, heq⟩⟩
        · exact absurd hrest (hdb (.inr hU) rest)
        · rw [heq]
          exact hnotFound hne
        · rw [heq]
          dsimp only
          rw [if_neg hc₀]
          exact hnotFound hne
      · rw [if_neg hU, if_pos (by tauto)]
        exact hnotFound hne

theorem effects_direct (write : Writer) {ms : List Message} (h : ∀ m ∈ ms, DirectMessage m) :
    ∀ {calls : List Call}, Served 0 calls (ms.map Message.body) →
      calls.map (Call.effect write) = ms.map fun m => .sendResponse 0 (reply write m).bytes := by
  induction ms with
  | nil =>
    intro calls hserved
    obtain rfl : calls = [] := by simpa [Served] using hserved
    rfl
  | cons m ms ih =>
    intro calls hserved
    obtain ⟨hm, hms⟩ := List.forall_mem_cons.mp h
    cases calls with
    | nil => simp [Served] at hserved
    | cons call calls =>
      obtain ⟨hcall, hcalls⟩ := List.cons.inj hserved
      rw [List.map_cons, List.map_cons, ih hms hcalls]
      congr 1
      cases call with
      | sendFatalError c payload => cases hcall
      | routeMessage c buf pos msglen =>
        obtain ⟨rfl, hbody⟩ := Prod.mk.inj (Option.some.inj hcall)
        have hbuild := buildMessage_body (c := 0) hbody hm.msgid hm.space
        apply routeMessage_direct write hm
        rw [hbuild, ← hm.connection]

theorem toSend_direct (write : Writer) (ms : List Message) :
    Server.toSend 0 (ms.map fun m => .sendResponse 0 (reply write m).bytes) =
      Client.replies (ms.map (reply write)) := by
  induction ms with
  | nil => rfl
  | cons m ms ih =>
    rw [List.map_cons, List.map_cons, Client.replies, List.map_cons, List.flatten_cons]
    exact congrArg ((reply write m).bytes ++ ·) ih

/-! The client's side. -/

section

variable {κ J : Type}

theorem replies_append (rs rs' : List Client.Reply) :
    Client.replies (rs ++ rs') = Client.replies rs ++ Client.replies rs' := by
  simp [Client.replies]

theorem inStep_append {rs : List Client.Reply} {todo : Bytes} {conn : Client.Connection κ}
    (h : Client.InStep rs todo conn) (r : Client.Reply) :
    Client.InStep (rs ++ [r]) (todo ++ r.bytes) conn := by
  have hreplies : ∀ rs, Client.replies (rs ++ [r]) = Client.replies rs ++ r.bytes := fun rs => by
    rw [replies_append]
    simp [Client.replies]
  cases h with
  | length hlen hb => exact .length hlen (by rw [← List.append_assoc, hb, hreplies])
  | body r' rest hrs hlen hb =>
    subst hrs
    refine .body r' (rest ++ [r]) rfl hlen ?_
    rw [← List.append_assoc, hb, hreplies, List.append_assoc]

theorem inStep_read {rs : List Client.Reply} {data todo : Bytes} {conn : Client.Connection κ}
    (h : Client.InStep rs (data ++ todo) conn) :
    Client.InStep rs todo { conn with readBuf := conn.readBuf ++ data } := by
  cases h with
  | length hlen hb => exact .length hlen (by rw [List.append_assoc, hb])
  | body r rest hrs hlen hb => exact .body r rest hrs hlen (by rw [List.append_assoc, hb])

theorem inStep_of_reader {rs : List Client.Reply} {todo : Bytes} {conn conn' : Client.Connection κ}
    (h : Client.InStep rs todo conn) (hbuf : conn'.readBuf = conn.readBuf)
    (hlen : conn'.readMsgLen = conn.readMsgLen) : Client.InStep rs todo conn' := by
  cases h with
  | length hnone hb => exact .length (hlen.trans hnone) (by rw [hbuf, hb])
  | body r rest hrs hsome hb => exact .body r rest hrs (hlen.trans hsome) (by rw [hbuf, hb])

/-- A pass leaves an open connection open, unless it fails. -/
def Opens (conn : Client.Connection κ) : Client.Pass κ J → Prop
  | .more conn' | .handled conn' _ _ => conn'.closed = conn.closed
  | .failed .. => True

theorem opens_readBody (loads : Bytes → Option J) (conn : Client.Connection κ) (n : ℤ) :
    Opens conn (Client.readBody loads conn n) := by
  unfold Client.readBody Client.handleMessage
  dsimp only
  split_ifs
  · split
    · trivial
    · split
      · trivial
      · rfl
  · rfl

theorem opens_pass (loads : Bytes → Option J) (conn : Client.Connection κ) :
    Opens conn (Client.pass loads conn) := by
  unfold Client.pass
  split
  · exact opens_readBody loads conn _
  · dsimp only
    split
    · rfl
    · split
      · trivial
      · exact opens_readBody loads _ _

/-- The bindings that calls of `send` make, when the next id is `n`. -/
def slots : ℕ → List (Client.Request κ) → List (Σ _ : Bytes, κ)
  | _, [] => []
  | n, r :: rs => ⟨dec n, r.callback⟩ :: slots (n + 1) rs

theorem slots_append (n : ℕ) (rs : List (Client.Request κ)) (r : Client.Request κ) :
    slots n (rs ++ [r]) = slots n rs ++ [⟨dec (n + rs.length), r.callback⟩] := by
  induction rs generalizing n with
  | nil => rfl
  | cons q rs ih =>
    rw [List.cons_append, slots, slots, ih, List.cons_append, List.length_cons, Nat.add_right_comm,
      Nat.add_assoc]

theorem messages_append (n : ℕ) (rs : List (Client.Request κ)) (r : Client.Request κ) :
    Client.messages 0 n (rs ++ [r]) =
      Client.messages 0 n rs ++ [⟨0, dec (n + rs.length), r.method ++ r.target, r.payload⟩] := by
  induction rs generalizing n with
  | nil => rfl
  | cons q rs ih =>
    rw [List.cons_append, Client.messages, Client.messages, ih, List.cons_append, List.length_cons,
      Nat.add_right_comm, Nat.add_assoc]

theorem slots_drop (k : ℕ) :
    ∀ (n : ℕ) (rs : List (Client.Request κ)), (slots n rs).drop k = slots (n + k) (rs.drop k) := by
  induction k with
  | zero => intro n rs; rfl
  | succ k ih =>
    intro n rs
    cases rs with
    | nil => rfl
    | cons r rs =>
      rw [slots, List.drop_succ_cons, List.drop_succ_cons, ih, Nat.add_right_comm, Nat.add_assoc]

theorem messages_drop (k : ℕ) : ∀ (n : ℕ) (rs : List (Client.Request κ)),
    (Client.messages 0 n rs).drop k = Client.messages 0 (n + k) (rs.drop k) := by
  induction k with
  | zero => intro n rs; rfl
  | succ k ih =>
    intro n rs
    cases rs with
    | nil => rfl
    | cons r rs =>
      rw [Client.messages, List.drop_succ_cons, List.drop_succ_cons, ih, Nat.add_right_comm,
        Nat.add_assoc]

theorem slots_callbacks (n : ℕ) (rs : List (Client.Request κ)) :
    (slots n rs).map Sigma.snd = rs.map (·.callback) := by
  induction rs generalizing n with
  | nil => rfl
  | cons r rs ih => rw [slots, List.map_cons, List.map_cons, ih]

theorem length_messages (n : ℕ) (rs : List (Client.Request κ)) :
    (Client.messages 0 n rs).length = rs.length := by
  induction rs generalizing n with
  | nil => rfl
  | cons r rs ih => rw [Client.messages, List.length_cons, List.length_cons, ih]

theorem id_of_slot {n : ℕ} {rs : List (Client.Request κ)} {e : Σ _ : Bytes, κ}
    (h : e ∈ slots n rs) :
    ∃ j < n + rs.length, dec j = e.1 := by
  induction rs generalizing n with
  | nil => cases h
  | cons r rs ih =>
    rw [List.length_cons]
    rcases List.mem_cons.mp h with rfl | h
    · exact ⟨n, by omega, rfl⟩
    · obtain ⟨j, hj, hdec⟩ := ih h
      exact ⟨j, by omega, hdec⟩

theorem slot_of_message {n : ℕ} {rs : List (Client.Request κ)} {m : Message}
    (h : m ∈ Client.messages 0 n rs) :
    ∃ cb, ⟨m.msgid, cb⟩ ∈ slots n rs := by
  induction rs generalizing n with
  | nil => cases h
  | cons r rs ih =>
    rcases List.mem_cons.mp h with rfl | h
    · exact ⟨_, List.mem_cons_self ..⟩
    · obtain ⟨cb, hcb⟩ := ih h
      exact ⟨cb, List.mem_cons_of_mem _ hcb⟩

/-! The two directions. -/

/-- The requests of a client whose calls are all plain. -/
structure Requested (calls : List (Client.Request κ)) : Prop where
  valid : ∀ r ∈ calls, r.Valid ∧ Direct r
  short : ∀ m ∈ Client.messages 0 0 calls, m.body.length < 10 ^ 9

theorem direct_messages {calls : List (Client.Request κ)}
    (h : ∀ r ∈ calls, r.Valid ∧ Direct r) (n : ℕ) :
    ∀ m ∈ Client.messages 0 n calls, DirectMessage m := by
  induction calls generalizing n with
  | nil => intro m hm; cases hm
  | cons r calls ih =>
    obtain ⟨⟨hvalid, hdirect⟩, hcalls⟩ := List.forall_mem_cons.mp h
    refine List.forall_mem_cons.mpr ⟨?_, ih hcalls (n + 1)⟩
    have hplain := Client.messages_plain 0 [r] (List.forall_mem_singleton.mpr hvalid) n _
      (List.mem_singleton_self _)
    refine ⟨hplain.1, hplain.2.1, hplain.2.2.1, ?_⟩
    unfold Direct at hdirect
    have hmethod := hvalid.method
    simp only [List.mem_cons, List.not_mem_nil, or_false] at hmethod
    rcases hmethod with hm | hm | hm | hm
    · rw [hm] at hdirect ⊢
      exact ⟨byte 'G', r.target, rfl, .inl rfl, fun _ => hdirect (.inl rfl)⟩
    · rw [hm]
      exact ⟨byte 'P', r.target, rfl, .inr (.inl rfl), fun h => absurd h (by decide)⟩
    · rw [hm] at hdirect ⊢
      exact ⟨byte 'U', r.target, rfl, .inr (.inr (.inl rfl)), fun _ => hdirect (.inr rfl)⟩
    · rw [hm]
      exact ⟨byte 'D', r.target, rfl, .inr (.inr (.inr rfl)), fun h => absurd h (by decide)⟩

theorem response_reply (loads : Bytes → Option J) (write : Writer) {r : Client.Request κ}
    (h : r.Valid) (n : ℕ) :
    Client.response loads ((reply write ⟨0, dec n, r.method ++ r.target, r.payload⟩).status ::
      (reply write ⟨0, dec n, r.method ++ r.target, r.payload⟩).payload) =
        answer loads write r := by
  have hversion : r.method ++ r.target = text "Gversion" ↔
      r.method = text "G" ∧ r.target = text "version" := by
    have hlen : r.method.length = (text "G").length := h.method_plain.1.2
    exact ⟨fun h => List.append_inj h hlen, fun ⟨hm, ht⟩ => by rw [hm, ht]; rfl⟩
  unfold reply answer
  by_cases hv : r.method = text "G" ∧ r.target = text "version"
  · rw [if_pos (hversion.mpr hv), if_pos hv]
    rfl
  · rw [if_neg (mt hversion.mp hv), if_neg hv]

/-- The client has handled the answers to the first `k` calls, and `todo` is still to come. -/
structure Answering (write : Writer) (calls : List (Client.Request κ)) (k : ℕ) (todo : Bytes)
    (conn : Client.Connection κ) : Prop where
  pending : conn.pending.entries.Perm ((slots 0 calls).drop k)
  step : Client.InStep (((Client.messages 0 0 calls).drop k).map (reply write)) todo conn
  closed : conn.closed = false
  nextId : conn.nextId = calls.length

theorem Answering.awaited {write : Writer} {calls : List (Client.Request κ)} {k : ℕ} {todo : Bytes}
    {conn : Client.Connection κ} (h : Answering write calls k todo conn)
    (hcalls : ∀ r ∈ calls, r.Valid ∧ Direct r) :
    Client.Awaited conn (((Client.messages 0 0 calls).drop k).map (reply write)) := by
  intro r hr
  obtain ⟨m, hm, rfl⟩ := List.mem_map.mp hr
  have hid : (reply write m).msgid = m.msgid := by
    unfold reply
    split_ifs <;> rfl
  rw [hid]
  refine ⟨?_, (direct_messages hcalls 0 m (List.mem_of_mem_drop hm)).msgid⟩
  rw [messages_drop] at hm
  obtain ⟨cb, hcb⟩ := slot_of_message hm
  rw [← slots_drop] at hcb
  exact AList.mem_keys.mpr (List.mem_map_of_mem (h.pending.mem_iff.mpr hcb))

/-- A pass of `check` up to the next `_read` waits for more, or handles the answer to the next call
in turn. -/
theorem answering_check (loads : Bytes → Option J) {write : Writer}
    {calls : List (Client.Request κ)} {k : ℕ} {todo : Bytes}
    {conn : Client.Connection κ} (h : Answering write calls k todo conn)
    (hcalls : ∀ r ∈ calls, r.Valid ∧ Direct r) :
    (∃ conn', Client.check loads conn [] = ⟨conn', [], [], none⟩ ∧
      Answering write calls k todo conn' ∧
      Client.front conn' = .more conn' ∧ (todo = [] → calls.length ≤ k)) ∨
    ∃ conn' r, Client.check loads conn [] =
      ⟨conn', [(r.callback, answer loads write r)], [], some .handled⟩ ∧
      calls[k]? = some r ∧ Answering write calls (k + 1) todo conn' := by
  have hprogress := Client.progress_pass loads (h.awaited hcalls) h.step
  have hopens := opens_pass loads conn
  have hkeeps := Client.keeps_pass loads conn
  unfold Client.check
  cases hpass : Client.pass loads conn with
  | failed conn' invoked msg =>
    rw [hpass] at hprogress
    cases hprogress
  | more conn' =>
    rw [hpass] at hprogress hopens hkeeps
    cases hprogress with
    | more _ hstep hpending htodo =>
      refine .inl ⟨conn', rfl, ⟨by rw [hpending]; exact h.pending, hstep, hopens.trans h.closed,
        hkeeps.nextId.trans h.nextId⟩, Client.front_again (Client.pass_eq_more_iff.mp hpass),
          fun hnil => ?_⟩
      have hlen := congrArg List.length (htodo hnil)
      rw [messages_drop, List.length_map] at hlen
      by_contra hlt
      obtain ⟨r, rest, hrest⟩ := List.exists_cons_of_ne_nil (List.ne_nil_of_length_pos
        (show 0 < (calls.drop k).length by rw [List.length_drop]; omega))
      rw [hrest, Client.messages] at hlen
      simp at hlen
  | handled conn' cb result =>
    rw [hpass] at hprogress hopens hkeeps
    cases hprogress with
    | handled reply' rest _ _ hrs hcb hpending hstep =>
      -- the answer is the one to the call that is next
      have hlt : k < calls.length := by
        by_contra hge
        rw [messages_drop, List.drop_eq_nil_of_le (by omega)] at hrs
        cases hrs
      obtain ⟨r, hr⟩ : ∃ r, calls[k]? = some r := ⟨_, List.getElem?_eq_getElem hlt⟩
      have hcons : calls.drop k = r :: calls.drop (k + 1) := by
        rw [List.drop_eq_getElem_cons hlt,
          Option.some.inj ((List.getElem?_eq_getElem hlt).symm.trans hr)]
      have hmessages : (Client.messages 0 0 calls).drop k =
          ⟨0, dec k, r.method ++ r.target, r.payload⟩ :: (Client.messages 0 0 calls).drop
              (k + 1) := by
        rw [messages_drop, messages_drop, hcons, Client.messages, Nat.zero_add, Nat.zero_add]
      have hslots : (slots 0 calls).drop k =
          ⟨dec k, r.callback⟩ :: (slots 0 calls).drop (k + 1) := by
        rw [slots_drop, slots_drop, hcons, slots, Nat.zero_add, Nat.zero_add]
      rw [hmessages, List.map_cons] at hrs
      obtain ⟨rfl, rfl⟩ := List.cons.inj hrs
      have hid : (reply write ⟨0, dec k, r.method ++ r.target, r.payload⟩).msgid = dec k := by
        unfold reply
        split_ifs <;> rfl
      rw [hid] at hcb hpending
      have hslot : (⟨dec k, r.callback⟩ : Σ _ : Bytes, κ) ∈ conn.pending.entries :=
        h.pending.mem_iff.mpr (hslots ▸ List.mem_cons_self ..)
      obtain rfl : cb = r.callback :=
        Option.some.inj (hcb.symm.trans (AList.mem_lookup_iff.mpr hslot))
      refine .inr ⟨conn', r, ?_, hr, ?_, hstep, hopens.trans h.closed, hkeeps.nextId.trans h.nextId⟩
      · rw [response_reply loads write (hcalls r (List.mem_of_getElem? hr)).1 k]
        rfl
      · rw [hpending]
        have hperm := (Client.entries_perm_of_lookup hcb).symm.trans h.pending
        rw [hslots] at hperm
        exact List.Perm.cons_inv hperm

/-- The bytes from the client that the dispatcher has not dealt with: the frames of the messages,
the first of them not complete in `readBuf`. -/
def Unread (readBuf future : Bytes) (ms : List Message) : Prop :=
  ∃ fs : List Frame, fs.map Frame.body = ms.map Message.body ∧ (∀ f ∈ fs, f.ws = []) ∧
    readBuf ++ future = stream fs [] ∧ ∀ f ∈ fs.head?, readBuf.length < f.bytes.length

theorem Unread.append {readBuf future : Bytes} {ms : List Message} (h : Unread readBuf future ms)
    {m : Message}
    (hm : m.body.length < 10 ^ 9) : Unread readBuf (future ++ frame m.body) (ms ++ [m]) := by
  obtain ⟨fs, hbodies, hws, hstream, hhead⟩ := h
  refine ⟨fs ++ [⟨[], m.body, by simp, hm⟩], by simp [hbodies], ?_, ?_, ?_⟩
  · intro f hf
    rcases List.mem_append.mp hf with hf | hf
    · exact hws f hf
    · obtain rfl := List.mem_singleton.mp hf
      rfl
  · have hsnoc : ∀ f : Frame, stream (fs ++ [f]) [] = stream fs [] ++ f.bytes := fun f => by
      simp [stream]
    rw [hsnoc, ← hstream, List.append_assoc]
    rfl
  · cases fs with
    | nil =>
      intro f hf
      obtain rfl := Option.some.inj hf
      have hnil : readBuf = [] := (List.append_eq_nil_iff.mp hstream).1
      rw [hnil, Frame.bytes_length]
      simp only [List.length_nil]
      omega
    | cons g fs => exact hhead

/-- A read of some of the bytes: the dispatcher answers the messages that are now complete. -/
theorem Unread.read (write : Writer) {readBuf data future : Bytes} {ms : List Message}
    (h : Unread readBuf (data ++ future) ms)
    (hms : ∀ m ∈ ms, DirectMessage m ∧ ∀ b ∈ m.body, iscrlf b = false) :
    ∃ j ≤ ms.length, (Server.received write 0 readBuf data).1 =
      (ms.take j).map (fun m => .sendResponse 0 (reply write m).bytes) ∧
      Unread (Server.received write 0 readBuf data).2 future (ms.drop j) := by
  obtain ⟨fs, hbodies, hws, hstream, -⟩ := h
  rw [← List.append_assoc] at hstream
  have hline : ∀ b ∈ stream fs [], iscrlf b = false := by
    intro b hb
    simp only [stream, List.append_nil, List.mem_flatten, List.mem_map] at hb
    obtain ⟨_, ⟨f, hf, rfl⟩, hb⟩ := hb
    rw [Frame.bytes, hws f hf, List.nil_append, frame] at hb
    obtain ⟨m, hm, hbody⟩ := List.mem_map.mp (hbodies ▸ List.mem_map_of_mem hf)
    rcases List.mem_append.mp hb with hb | hb
    · exact Client.dec_no_line _ b hb
    · rcases List.mem_cons.mp hb with rfl | hb
      · rfl
      · exact (hms m hm).2 b (hbody ▸ hb)
  obtain ⟨hserved, hrest⟩ := readChunk_plain 0 hws hline hstream
  obtain ⟨haccount, tail, htail, hleft⟩ := scan_account false fs 0 (readBuf ++ data) hstream
  obtain rfl := List.suffix_nil.mp htail
  -- the bodies that have been served are those of the first messages
  have hsplit : ms.map Message.body = (scan false 0 fs (readBuf ++ data)).bodies ++
      (scan false 0 fs (readBuf ++ data)).left.map Frame.body := hbodies.symm.trans haccount
  have htake : (scan false 0 fs (readBuf ++ data)).bodies =
      (ms.take (scan false 0 fs (readBuf ++ data)).bodies.length).map Message.body := by
    rw [List.map_take, hsplit, List.take_left]
  have hdrop : (scan false 0 fs (readBuf ++ data)).left.map Frame.body =
      (ms.drop (scan false 0 fs (readBuf ++ data)).bodies.length).map Message.body := by
    rw [List.map_drop, hsplit, List.drop_left]
  refine ⟨(scan false 0 fs (readBuf ++ data)).bodies.length, ?_, ?_, _, hdrop,
    scan_left_ws hws, ?_, ?_⟩
  · have hlen := congrArg List.length hsplit
    rw [List.length_map, List.length_append] at hlen
    omega
  · rw [htake] at hserved
    exact effects_direct write (fun m hm => (hms m (List.mem_of_mem_take hm)).1) hserved
  · exact (congrArg (· ++ future) hrest).trans hleft
  · have hunfinished := scan_unfinished rfl fs 0 (readBuf ++ data)
    rw [← hrest] at hunfinished
    exact hunfinished

end

end Remote

end Xaprun
