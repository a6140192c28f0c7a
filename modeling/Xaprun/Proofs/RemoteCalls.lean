import Xaprun.Proofs.RemoteProgress
import Xaprun.Spec.Reply

/-! A call of `sendwait` returns with the result of its own request, and what the client makes of
it. -/

namespace Xaprun

open Frames Runs

namespace Remote

variable {κ J V : Type} {loads : Bytes → Option J} {write : Writer} {capacity : ℕ}
  {items : J → Option (Bytes → Option (Reply.Item V))} {isOne : V → Bool} {message : Reply.Item V}
  {s s' s₀ : State κ J} {a : Act κ} {i : ℕ}

/-! What the client makes of a result. -/

theorem understood_answer (h : ReadsNotFound loads write items isOne message)
    (r : Client.Request κ) :
    Understood items isOne message r (answer loads write r) := by
  refine ⟨fun hmethod htarget => ?_, fun hother => ?_⟩
  · rw [answer, if_pos ⟨hmethod, htarget⟩]
    rfl
  · obtain ⟨v, get, hv, hget, hok, hmsg⟩ := h.reads
    have hresponse : answer loads write r = .json v := by
      rw [answer, if_neg hother]
      simp only [Client.response]
      rw [if_neg (by decide), if_pos (by decide), hv]
    rw [hresponse, Reply.check, Reply.dict, hget]
    dsimp only
    rw [if_pos hok, hmsg]
    rfl

/-! The loop of `sendwait`. -/

/-- The call number `i` waits for its result in an open connection, and the server serves it. -/
structure Awaited (loads : Bytes → Option J) (write : Writer) (capacity i : ℕ) (s₀ s : State κ J) :
    Prop where
  reachable : Reachable (step loads write capacity) PlainSends (init κ J) s
  opened : s.client.closed = false
  serves : Serves s
  calls : s.calls = s₀.calls
  left : s.fired.length ≤ i
  called : i < s.calls.length

/-- The calls that have no result yet, whether a call of `check` is to come, and how far the bytes
are. -/
def toCome (s : State κ J) : ℕ × ℕ × (ℕ × ℕ × ℕ × ℕ × ℕ) :=
  (s.calls.length - s.fired.length, if s.checking then 0 else 1, distance s)

def Fewer : ℕ × ℕ × (ℕ × ℕ × ℕ × ℕ × ℕ) → ℕ × ℕ × (ℕ × ℕ × ℕ × ℕ × ℕ) → Prop :=
  Prod.Lex (· < ·) (Prod.Lex (· < ·) Nearer)

theorem fewer_wf : WellFounded Fewer :=
  (Prod.lex Nat.lt_wfRel (Prod.lex Nat.lt_wfRel ⟨Nearer, nearer_wf⟩)).wf

theorem awaiting_of_inner (h : Inner s a) : Awaiting i s a := by
  cases a with
  | check => cases h
  | send | accept | broken | read | expired | eof | close | server | exit => exact h

/-- A call of `check` is going on, or can begin, or the pipe has yet to take the request. -/
theorem Awaited.moves (h : Awaited loads write capacity i s₀ s) :
    Blocked capacity s ∨ ∃ a s', Awaiting i s a ∧ step loads write capacity s a = some s' := by
  cases hchecking : s.checking with
  | true =>
    have hwaiting : Waiting loads write capacity s s :=
      ⟨h.reachable, h.opened, h.serves, hchecking, rfl, rfl, h.left.trans_lt h.called⟩
    rcases exists_inner hwaiting with hblocked | ⟨a, s', hinner, hs⟩
    · exact .inl hblocked
    · exact .inr ⟨a, s', awaiting_of_inner hinner, hs⟩
  | false =>
    right
    by_cases hsending : s.sending = []
    · refine ⟨.check, resume s (Client.check loads s.client []), h.left, ?_⟩
      rw [step, if_pos]
      simp [State.unlocked, hsending, hchecking]
    · refine ⟨.accept s.sending.length, { s with
        requests := s.requests ++ s.sending.take s.sending.length
        sending := s.sending.drop s.sending.length }, trivial, ?_⟩
      rw [step, if_pos ⟨h.serves.alive, List.length_pos_of_ne_nil hsending, Nat.le_refl _⟩]

theorem Awaited.resumed (h : Awaited loads write capacity i s₀ s) {k' m : ℕ}
    (hsynced' : Synced loads write s' k' m)
    (hresumed : Resumed s s' k') (hserver : s'.server = s.server)
    (halive : s'.alive = s.alive)
    (hreach : Reachable (step loads write capacity) PlainSends (init κ J) s')
    (hcloser : s'.checking = true →
      Prod.Lex (· < ·) Nearer (if s'.checking then 0 else 1, distance s')
      (if s.checking then 0 else 1, distance s)) :
    Returned loads write i s₀ s' ∨ Awaited loads write capacity i s₀ s' ∧
      Fewer (toCome s') (toCome s) := by
  obtain ⟨hcalls, hresult⟩ := hresumed
  have hserves : Serves s' :=
    ⟨halive ▸ h.serves.alive, hserver ▸ h.serves.looping, hserver ▸ h.serves.nudge⟩
  have hcalled : i < s'.calls.length := hcalls ▸ h.called
  rcases hresult with ⟨hchecking, rfl⟩ | ⟨hchecking, rfl⟩
  · have hfired := hsynced'.length_fired
    refine .inr ⟨⟨hreach, hsynced'.answering.closed, hserves, hcalls.trans h.calls, hfired ▸ h.left,
      hcalled⟩, ?_⟩
    rw [toCome, toCome, hcalls, hfired]
    exact Prod.Lex.right _ (hcloser hchecking)
  · have hfired := hsynced'.length_fired
    by_cases hlast : s.fired.length = i
    · refine .inl ⟨hchecking, hcalls.trans h.calls, ?_⟩
      rw [hsynced'.fired, hcalls, h.calls, hlast]
    · refine .inr ⟨⟨hreach, hsynced'.answering.closed, hserves, hcalls.trans h.calls, ?_, hcalled⟩,
        Prod.Lex.left _ _ ?_⟩
      · have := h.left
        omega
      · have := h.left
        have := h.called
        rw [hcalls, hfired]
        omega

theorem Awaited.step (h : Awaited loads write capacity i s₀ s) (hok : Awaiting i s a)
    (hs : step loads write capacity s a = some s') :
    Returned loads write i s₀ s' ∨ Awaited loads write capacity i s₀ s' ∧
      Fewer (toCome s') (toCome s) := by
  have hplain : PlainSends s a := plainSends_of_ne_send fun r hr => by
    subst hr
    exact hok
  have hreach := h.reachable.next hplain hs
  obtain ⟨k, m, hsynced⟩ := synced_of_open h.reachable h.opened
  have hflows : Inner s a → (∀ n, a ≠ .read n) → Awaited loads write capacity i s₀ s' ∧
      Fewer (toCome s') (toCome s) := by
    intro hinner hread
    have hflows := flows_step h.reachable h.opened h.serves hinner hread hs
    refine ⟨⟨hreach, hflows.client ▸ h.opened, hflows.serves, hflows.calls.trans h.calls,
      hflows.fired ▸ h.left,
      hflows.calls ▸ h.called⟩, ?_⟩
    rw [toCome, toCome, hflows.calls, hflows.fired, hflows.checking]
    exact Prod.Lex.right _ (Prod.Lex.right _ hflows.nearer)
  cases a with
  | accept | server => exact .inr (hflows hok (by simp))
  | check =>
    obtain ⟨hunlocked, hs⟩ := Option.ite_none_right_eq_some.mp hs
    obtain rfl := Option.some.inj hs
    obtain ⟨-, hchecking⟩ : s.sending = [] ∧ s.checking = false := by
      simpa [State.unlocked] using hunlocked
    obtain ⟨k', hsynced', hresumed⟩ := synced_resume hsynced
    refine h.resumed hsynced' hresumed rfl rfl hreach fun hgoes => Prod.Lex.left _ _ ?_
    rw [hgoes, hchecking]
    exact Nat.one_pos
  | read n =>
    obtain ⟨⟨hchecking, -, hpos, -, hle⟩, hs⟩ := Option.ite_none_right_eq_some.mp hs
    obtain rfl : afterRead loads s n = s' := Option.some.inj hs
    obtain ⟨k', hsynced', hresumed⟩ := synced_read hsynced n
    refine h.resumed hsynced' hresumed rfl rfl hreach fun hgoes => ?_
    rw [hgoes, hchecking]
    refine Prod.Lex.right _ (nearer_iff.mpr (.inr ⟨rfl, .inr ⟨rfl, .inr ⟨rfl, .inl ?_⟩⟩⟩))
    simp only [distance, undelivered, afterRead, resume, List.length_drop]
    omega
  | send | broken | expired | eof | close | exit => cases hok

/-- A thread in `sendwait`, with the requests of any earlier calls of `send` still unanswered, gets
the result of its own: in whatever order the pipes, the server and its own calls of `check` go on,
and however few bytes each of them moves, unless the server waits for room in its nudge socket. -/
theorem sendwait_returns (h : Reachable (Remote.step loads write capacity) PlainSends (init κ J) s)
    (hopen : s.client.closed = false) (hserves : Serves s) (hleft : s.fired.length ≤ i)
    {r : Client.Request κ}
    (hr : s.calls[i]? = some r) (hjson : ReadsNotFound loads write items isOne message) :
    Inevitable (Remote.step loads write capacity) (Awaiting i) (fun s' => Blocked capacity s' ∨
      Returned loads write i s s' ∧ ∃ result, s'.fired[i]? = some (r.callback, result) ∧
        Understood items isOne message r result) s := by
  have hcalled := (List.getElem?_eq_some_iff.mp hr).1
  have hreturned : ∀ s', Returned loads write i s s' →
    ∃ result, s'.fired[i]? = some (r.callback, result) ∧
      Understood items isOne message r result := by
    intro s' hs'
    refine ⟨answer loads write r, ?_, understood_answer hjson r⟩
    rw [hs'.fired, List.getElem?_map, List.getElem?_take_of_lt (Nat.lt_succ_self i), hr]
    rfl
  refine inevitable_of_measure fewer_wf toCome (Awaited loads write capacity i s) (fun s' h' => ?_)
    (fun s' a s'' h' hok hs => ?_) s ⟨h, hopen, hserves, rfl, hleft, hcalled⟩
  · rcases h'.moves with hblocked | hmoves
    · exact .inl (.inl hblocked)
    · exact .inr hmoves
  · rcases h'.step hok hs with hdone | hgoes
    · exact .inl (.inr ⟨hdone, hreturned s'' hdone⟩)
    · exact .inr hgoes

def rootItems (root : Root) :
    Option (Bytes → Option (Reply.Item Empty)) := Reply.dict (fun _ : Empty => none) (.dict root)

/-- `sendwait` is called for the version, when another request has been sent but not answered. -/
theorem sendwait_returns_otherAndVersion :
    ∃ s : State ℕ Root,
      Reachable (Remote.step loadsNotFound fastWriter 1) PlainSends (init ℕ Root) s ∧
      s.fired = [] ∧ s.calls[1]? = some ⟨text "G", text "version", [], 8⟩ ∧
      Inevitable (Remote.step loadsNotFound fastWriter 1) (Awaiting 1) (fun s' => Blocked 1 s' ∨
        Returned loadsNotFound fastWriter 1 s s' ∧ ∃ result, s'.fired[1]? = some (8, result) ∧
          Understood rootItems Empty.elim (.str (text "Not found"))
            ⟨text "G", text "version", [], 8⟩ result) s := by
  have hrun : ∃ s, exec (Remote.step loadsNotFound fastWriter 1) PlainSends (init ℕ Root)
      [.send ⟨text "G", text "other", [], 7⟩, .accept 11, .send ⟨text "G", text "version", [], 8⟩,
        .accept 3] = some s ∧
      s.fired = [] ∧ s.calls[1]?.map (fun r => (r.method, r.target, r.payload, r.callback)) =
        some (text "G", text "version", [], 8) ∧ s.client.closed = false ∧ s.alive = true ∧
      Server.ended s.server.main = false ∧ s.server.nudge = [] :=
    exists_of_exec (by decide +kernel)
  obtain ⟨s, hexec, hfired, hcall, hopen, halive, hlooping, hnudge⟩ := hrun
  have hcalls : s.calls[1]? = some ⟨text "G", text "version", [], 8⟩ := by
    obtain ⟨⟨method, target, payload, callback⟩, hr, heq⟩ := Option.map_eq_some_iff.mp hcall
    obtain ⟨rfl, rfl, rfl, rfl⟩ := heq
    exact hr
  have hreach := reachable_of_exec hexec
  have hserves : Serves s := ⟨halive, hlooping, by rw [hnudge]; simp⟩
  have hjson : ReadsNotFound loadsNotFound fastWriter rootItems Empty.elim
      (.str (text "Not found")) :=
    ⟨⟨⟨0, text "Not found"⟩, _, if_pos rfl, rfl, rfl, rfl⟩⟩
  exact ⟨s, hreach, hfired, hcalls, sendwait_returns hreach hopen hserves
    (by simp [hfired]) hcalls hjson⟩

end Remote

end Xaprun
