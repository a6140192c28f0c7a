import Xaprun.Proofs.RemoteProgress
import Xaprun.Proofs.Stopping

/-! A client that closes its connection waits for the server to exit (`LocalConnection._close`), and
does not wait in vain: the server reads what is left in the pipe, finds its end, and with the last
connection the main loop is left. -/

namespace Xaprun

open Frames Runs

namespace Server

variable {write : Writer} {capacity : ℕ} {s s' : Server} {a : Act} {pass pass' : Pass} {c : ℤ}

/-! The passes over a connection whose end can be read. -/

/-- The server has standard input and output for its connection, which is there as long as it is
visited. -/
structure Attached (s : Server) : Prop where
  only : ∀ c ∈ s.connections, c = 0
  reads : ∀ pass ∈ passOf s.main, ∀ c, .read c ∈ pass.todo → c ∈ s.connections
  selecting : s.main = .select → s.connections.toList ≠ []

theorem attached_init (useStdio : Bool) : Attached (init useStdio) where
  only := by
    intro c hc
    cases useStdio with
    | true =>
      rcases SortedMap.mem_insert.mp hc with rfl | hc
      · rfl
      · simp at hc
    | false => exact absurd hc (SortedMap.not_mem_empty _)
  reads := by simp [init, passOf]
  selecting := by simp [init]

theorem mem_connections_step (h : s.step write capacity a = some s') (hend : a ≠ .endPass) :
    c ∈ s'.connections ↔ c ∈ s.connections := by
  have htouches := touches_of_step h
  generalize s'.connections = connections at htouches ⊢
  cases htouches with
  | same => exact Iff.rfl
  | dispatched => exact mem_dispatchResponses
  | read | wrote => exact SortedMap.mem_modify
  | closed => exact absurd rfl hend

theorem attached_step (h : s.step write capacity a = some s') (hi : Attached s) : Attached s' where
  only := fun c hc => hi.only c (keeps_moves (moves_of_step h) c hc)
  reads := by
    intro pass' hp' c hread
    cases passes_of_step h pass' hp' with
    | selected _ htodo =>
      rw [htodo] at hread
      exact (mem_connections_step h (by simp)).mpr (mem_of_visit hread)
    | same hp htodo _ _ hend =>
      exact (mem_connections_step h hend).mpr (hi.reads _ hp c (htodo ▸ hread))
    | read hp htodo =>
      exact (mem_connections_step h (by simp)).mpr
        (hi.reads _ hp c (htodo ▸ List.mem_cons_of_mem _ hread))
    | @wrote _ _ pass _ hm htodo =>
      have hp : pass ∈ passOf s.main := by rw [hm]; rfl
      exact (mem_connections_step h (by simp)).mpr
        (hi.reads _ hp c (htodo ▸ List.mem_cons_of_mem _ hread))
  selecting := by
    intro hm'
    cases moves_of_step h with
    | quiet | respond | nudged | shutdown => exact hi.selecting hm'
    | loop _ hne => exact hne
    | joined hm =>
      rw [hm] at hm'
      cases hm'
    | reap _ _ hmain => rcases hmain with rfl | rfl <;> cases hm'
    | leave | interrupted | selectNudge | selectConns | readNudge | readShutdown | dispatchResponses
    | connSkip
    | connRead | connWrite | endPass | answer | handOver | writeNudge | endDispatch | stop | join =>
      cases hm'

def closes (connections : SortedMap ℤ Connection) (pass : Pass) : Bool :=
  connections.toList.all fun i =>
    decide (.read i.1 ∈ pass.todo) || decide (i.1 ∈ pass.closedConnections)

theorem closes_iff {connections : SortedMap ℤ Connection} :
    closes connections pass = true ↔ ∀ c ∈ connections, .read c ∈ pass.todo ∨
      c ∈ pass.closedConnections := by
  simp only [closes, List.all_eq_true, Bool.or_eq_true, decide_eq_true_eq]
  constructor
  · intro h c hc
    obtain ⟨i, hi⟩ := SortedMap.mem_iff_exists.mp hc
    exact h (c, i) (SortedMap.mem_toList_iff.mpr hi)
  · intro h i hi
    exact h i.1 (SortedMap.mem_of_find (SortedMap.mem_toList_iff.mp hi))

/-- The passes that may be left until the connections are gone. -/
def passesLeft (s : Server) : ℕ :=
  match s.main with
  | .top => if s.connections.toList = [] then 0 else 2
  | .select => 2
  | .reading pass | .draining pass | .conns pass | .dispatching _ pass | .nudging _ pass =>
    if closes s.connections pass then 1 else 3
  | .stopping | .stopped | .joining | .finished => 0

theorem passesLeft_le (s : Server) : passesLeft s ≤ 3 := by
  unfold passesLeft
  split <;> first | omega | (split_ifs <;> omega)

theorem passesLeft_of_pass (hp : pass ∈ passOf s.main) :
    passesLeft s = if closes s.connections pass then 1 else 3 := by
  unfold passesLeft
  cases hm : s.main with
  | reading | draining | conns | dispatching | nudging =>
    rw [hm] at hp
    obtain rfl := Option.some.inj hp
    rfl
  | top | select | stopping | stopped | joining | finished =>
    rw [hm] at hp
    cases hp

theorem passesLeft_mono (hp : pass ∈ passOf s.main) (hp' : pass' ∈ passOf s'.main)
    (h : closes s.connections pass = true → closes s'.connections pass' = true) :
    passesLeft s' ≤ passesLeft s := by
  rw [passesLeft_of_pass hp, passesLeft_of_pass hp']
  cases hc : closes s.connections pass with
  | true => rw [h hc]
  | false =>
    rw [if_neg Bool.false_ne_true]
    split_ifs <;> omega

/-- A read of the end closes the connection. -/
theorem closes_read (h : s.step write capacity (.connRead (some [])) = some s')
    (hp : pass ∈ passOf s.main)
    (hp' : pass' ∈ passOf s'.main) (hcloses : closes s.connections pass = true) :
    closes s'.connections pass' = true := by
  simp only [step] at h
  split at h
  · rename_i c todo closed hm
    obtain rfl := Option.some.inj h
    rw [hm] at hp
    obtain rfl := Option.some.inj hp
    obtain rfl := Option.some.inj hp'
    refine closes_iff.mpr fun d hd => ?_
    rcases closes_iff.mp hcloses d hd with hread | hclosed
    · rcases List.mem_cons.mp hread with heq | hread
      · right
        cases heq
        exact SortedMap.mem_insert.mpr (.inl rfl)
      · exact .inl hread
    · exact .inr (SortedMap.mem_insert.mpr (.inr hclosed))
  · cases h

theorem closes_write {written : Option ℕ} (h : s.step write capacity (.connWrite written) = some s')
    (hp : pass ∈ passOf s.main) (hp' : pass' ∈ passOf s'.main)
    (hcloses : closes s.connections pass = true) :
    closes s'.connections pass' = true := by
  have hmem : ∀ d, d ∈ s'.connections ↔ d ∈ s.connections :=
    fun d => mem_connections_step h (by simp)
  have hkept : (∀ d, .read d ∈ pass.todo → .read d ∈ pass'.todo) ∧
      ∀ d, d ∈ pass.closedConnections → d ∈ pass'.closedConnections := by
    simp only [step] at h
    split at h
    · rename_i c todo closed hm
      rw [hm] at hp
      obtain rfl := Option.some.inj hp
      have htodo : ∀ d, .read d ∈ Visit.write c :: todo → .read d ∈ todo := fun d hd => by
        simpa using hd
      cases written with
      | none =>
        obtain rfl := Option.some.inj h
        obtain rfl := Option.some.inj hp'
        exact ⟨htodo, fun d hd => SortedMap.mem_insert.mpr (.inr hd)⟩
      | some n =>
        obtain ⟨-, h⟩ := Option.ite_none_right_eq_some.mp h
        obtain ⟨i, -, h⟩ := Option.bind_eq_some_iff.mp h
        obtain ⟨-, h⟩ := Option.ite_none_right_eq_some.mp h
        obtain rfl := Option.some.inj h
        obtain rfl := Option.some.inj hp'
        exact ⟨htodo, fun d hd => hd⟩
    · cases h
  refine closes_iff.mpr fun d hd => ?_
  exact (closes_iff.mp hcloses d ((hmem d).mp hd)).imp (hkept.1 d) (hkept.2 d)

/-- After a pass that has closed the connections there are none. -/
theorem passesLeft_endPass (h : s.step write capacity .endPass = some s') :
    passesLeft s' ≤ passesLeft s := by
  simp only [step] at h
  split at h
  · rename_i closed hm
    obtain rfl := Option.some.inj h
    have hp : (⟨[], closed⟩ : Pass) ∈ passOf s.main := by rw [hm]; rfl
    rw [passesLeft_of_pass hp]
    show (if (closeAll s.connections closed).toList = [] then 0 else 2) ≤ _
    cases hcloses : closes s.connections ⟨[], closed⟩ with
    | true =>
      have hnone : (closeAll s.connections closed).toList = [] := by
        refine SortedMap.toList_eq_nil_iff.mpr fun c hc => ?_
        obtain ⟨hopen, hmem⟩ := mem_closeAll.mp hc
        rcases closes_iff.mp hcloses c hmem with hread | hclosed
        · cases hread
        · exact hopen hclosed
      rw [if_pos hnone]
      exact Nat.zero_le _
    | false =>
      rw [if_neg Bool.false_ne_true]
      split_ifs <;> omega
  · cases h

/-- The steps of a server whose input is at its end. -/
def InputEnded (_ : Server) : Act → Prop
  | .select readable _ => 0 ∈ readable
  | .connRead data => data = some []
  | .interrupted => False
  | _ => True

/-- Every return of `select` begins a pass that closes the connections. -/
theorem passesLeft_step (h : s.step write capacity a = some s') (hok : InputEnded s a)
    (hi : Attached s) :
    passesLeft s' ≤ passesLeft s ∧ ∀ readable writable, a = .select readable writable →
      passesLeft s' < passesLeft s := by
  have hselected : ∀ readable writable pass, a = .select readable writable → s.main = .select →
    pass ∈ passOf s'.main →
      passesLeft s' < passesLeft s := by
    rintro readable writable pass rfl hm hp'
    have hcloses : closes s'.connections pass = true := by
      cases passes_of_step h pass hp' with
      | selected _ htodo =>
        refine closes_iff.mpr fun c hc => .inl ?_
        have hmem := (mem_connections_step h (by simp)).mp hc
        rw [htodo]
        refine read_mem_visits.mpr ⟨?_, hmem⟩
        rw [hi.only c hmem]
        exact hok
      | same hp =>
        rw [hm] at hp
        cases hp
    rw [passesLeft_of_pass hp', if_pos hcloses, passesLeft, hm]
    exact Nat.one_lt_two
  have hstep := h
  cases moves_of_step h with
  | quiet | respond | nudged | shutdown | joined => exact ⟨le_rfl, by simp⟩
  | leave | readShutdown | stop | join => exact ⟨Nat.zero_le _, by simp⟩
  | reap _ _ hmain =>
    refine ⟨?_, by simp⟩
    rcases hmain with rfl | rfl <;> exact Nat.zero_le _
  | interrupted => cases hok
  | loop hm hne => exact ⟨by simp [passesLeft, hm, hne], by simp⟩
  | selectNudge hm | selectConns hm =>
    have hlt := hselected _ _ _ rfl hm rfl
    exact ⟨hlt.le, fun _ _ _ => hlt⟩
  | @readNudge _ pass hm | @dispatchResponses pass hm | @answer _ _ _ _ pass hm
  | @handOver _ _ _ _ pass _ hm
  | @writeNudge _ pass hm | @endDispatch pass hm =>
    refine ⟨passesLeft_mono (show pass ∈ passOf s.main by rw [hm]; rfl) rfl fun hcloses => ?_,
      by simp⟩
    refine closes_iff.mpr fun c hc => closes_iff.mp hcloses c ?_
    exact (mem_connections_step hstep (by simp)).mp hc
  | connSkip hm =>
    obtain rfl : _ = some [] := hok
    exact ⟨passesLeft_mono (by rw [hm]; rfl) rfl (closes_read hstep (by rw [hm]; rfl) rfl), by simp⟩
  | connRead _ hne =>
    obtain rfl := Option.some.inj hok
    exact absurd rfl hne
  | connWrite hm =>
    exact ⟨passesLeft_mono (by rw [hm]; rfl) rfl (closes_write hstep (by rw [hm]; rfl) rfl),
      by simp⟩
  | endPass => exact ⟨passesLeft_endPass hstep, by simp⟩

/-- When `run` is about to return there are only signals, and each fills the nudge socket. -/
theorem Over.step (h : Over s) (hs : s.step write capacity a = some s') :
    Over s' ∧ capacity - s'.nudge.length < capacity - s.nudge.length := by
  cases a with
  | shutdown =>
    obtain ⟨hroom, hs⟩ := Option.ite_none_right_eq_some.mp hs
    obtain rfl := Option.some.inj hs
    refine ⟨⟨h.main, h.workers, h.exiting, h.exited, h.threads⟩, ?_⟩
    rw [List.length_append, List.length_singleton]
    omega
  | thread b =>
    obtain ⟨hb, hs, -⟩ := byThread_of_thread hs
    obtain ⟨w, hw⟩ := running_of_byThread hb hs
    exact absurd hw (SortedMap.toList_eq_nil_iff.mp h.threads w)
  | loop | interrupted | select | readNudge | dispatchResponses | connRead | connWrite | endPass
  | execute | writeNudge | endDispatch | stop | join | joined | reap =>
    simp [Server.step, h.main] at hs

end Server

namespace Remote

variable {κ J : Type} {loads : Bytes → Option J} {write : Writer} {capacity : ℕ} {s s' : State κ J}
  {a : Act κ}

/-- The steps of the server's process once the client has closed the pipes. `select` reports that
there is something to be read or the end, a read does not fail, and no signal interrupts `select`.
The process exits when `run` has returned. -/
def Deserted (s : State κ J) : Act κ → Prop
  | .server b =>
    match b with
    | .select readable _ => 0 ∈ readable
    | .connRead data => data ≠ none
    | .readNudge n => 0 < n
    | .interrupted => False
    | _ => True
  | .exit => s.server.main = .finished
  | .send _ | .accept _ | .broken | .check | .read _ | .expired | .eof | .close => False

/-- The process has exited, or something keeps `join` from returning. -/
def Gone (capacity : ℕ) (s : State κ J) : Prop := s.alive = false ∨ Server.Broken capacity s.server

/-- The bytes in the pipe, each of which may take a pass, and the passes after them. -/
def toRead (s : State κ J) : ℕ := 4 * s.requests.length + Server.passesLeft s.server

/-- The client has closed the pipes, and the server has not been through `stop`. -/
structure Closing (loads : Bytes → Option J) (write : Writer) (capacity : ℕ) (s : State κ J) :
    Prop where
  reachable : Reachable (step loads write capacity) free (init κ J) s
  alive : s.alive = true
  closed : s.client.closed = true
  serving : Server.serving s.server.main = true

theorem attached_of_reachable {server : Server}
    (h : Reachable (Server.step write capacity) free (Server.init true) server) :
    Server.Attached server :=
  h.invariant (Server.attached_init true) fun _ _ _ _ hs hi => Server.attached_step hs hi

theorem Closing.engaged (h : Closing loads write capacity s) : Server.Engaged s.server :=
  (Server.sane_of_reachable (server_reachable h.reachable)).engaged h.serving

theorem toRead_step {b : Server.Act} (hs : serverStep write capacity s b = some s')
    (hok : Deserted s (.server b))
    (hi : Server.Attached s.server) :
    toRead s' ≤ toRead s ∧ ∀ readable writable, b = .select readable writable →
      toRead s' < toRead s := by
  have hread : ∀ x xs, b = .connRead (some (x :: xs)) → toRead s' ≤ toRead s := by
    rintro x xs rfl
    obtain ⟨hahead, -⟩ := Option.ite_none_right_eq_some.mp hs
    obtain ⟨server, -, rfl⟩ := serverStep_some hs
    have hle := Server.passesLeft_le server
    have hlength := hahead.length_le
    simp only [toRead, consumed, List.length_drop, List.length_cons] at hlength ⊢
    omega
  obtain ⟨server, hstep, rfl⟩ := serverStep_some hs
  by_cases hdata : ∃ x xs, b = .connRead (some (x :: xs))
  · obtain ⟨x, xs, hb⟩ := hdata
    exact ⟨hread x xs hb, fun _ _ hsel => by rw [hsel] at hb; cases hb⟩
  · have hended : Server.InputEnded s.server b := by
      cases b with
      | connRead data =>
        rcases data with - | - | ⟨x, xs⟩
        · exact absurd rfl hok
        · rfl
        · exact absurd ⟨x, xs, rfl⟩ hdata
      | select | interrupted => exact hok
      | thread | shutdown | loop | readNudge | dispatchResponses | connWrite | endPass | execute
      | writeNudge
      | endDispatch | stop | join | joined | reap => trivial
    obtain ⟨hle, hselect⟩ := Server.passesLeft_step hstep hended hi
    have hdrop := List.length_drop (i := consumed b) (l := s.requests)
    refine ⟨?_, fun readable writable hb => ?_⟩
    · simp only [toRead]
      omega
    · have hlt := hselect readable writable hb
      simp only [toRead]
      omega

theorem Closing.step (h : Closing loads write capacity s) (hok : Deserted s a)
    (hs : step loads write capacity s a = some s') :
    (s'.alive = true ∧ Server.Ending write capacity true s'.server) ∨ s'.alive = false ∨
      Closing loads write capacity s' ∧ Server.Sooner (toRead s', Server.turn capacity s'.server)
        (toRead s, Server.turn capacity s.server) := by
  have hr := h.reachable.next trivial hs
  cases a with
  | exit =>
    obtain rfl := Option.some.inj hs
    exact .inr (.inl rfl)
  | server b =>
    obtain ⟨-, hs⟩ := Option.ite_none_right_eq_some.mp hs
    have hinterrupted : b ≠ .interrupted := by
      rintro rfl
      exact hok
    obtain ⟨hle, hselect⟩ := toRead_step hs hok
      (attached_of_reachable (server_reachable h.reachable))
    obtain ⟨server, hstep, rfl⟩ := serverStep_some hs
    rcases Server.sooner_step hstep h.serving h.engaged.workers hinterrupted hle hselect
      with hstopped | ⟨hserving, hsooner⟩
    · exact .inl ⟨h.alive, server_reachable hr, .inl hstopped⟩
    · exact .inr (.inr ⟨⟨hr, h.alive, h.closed, hserving⟩, hsooner⟩)
  | send | accept | broken | check | read | expired | eof | close => cases hok

/-! Something can move. -/

theorem deserted_server (halive : s.alive = true) {b : Server.Act} {server : Server}
    (hs : s.server.step write capacity b = some server) (hok : Deserted s (.server b))
    (hselect : ∀ readable writable, b ≠ .select readable writable)
    (hread : ∀ data, b ≠ .connRead data)
    (hwrite : ∀ n, b ≠ .connWrite n) :
    ∃ a s', Deserted s a ∧ step loads write capacity s a = some s' := by
  refine ⟨.server b, { s with server }, hok, ?_⟩
  rw [step, if_pos halive]
  cases b with
  | select readable writable => exact absurd rfl (hselect _ _)
  | connRead data => exact absurd rfl (hread _)
  | connWrite n => exact absurd rfl (hwrite _)
  | thread | shutdown | loop | interrupted | readNudge | dispatchResponses | endPass | execute
  | writeNudge
  | endDispatch | stop | join | joined | reap =>
    exact congrArg (Option.map fun server => { s with server }) hs

theorem deserted_select (h : Closing loads write capacity s) (hm : s.server.main = .select) :
    ∃ a s', Deserted s a ∧ step loads write capacity s a = some s' := by
  have hattached := attached_of_reachable (server_reachable h.reachable)
  obtain ⟨⟨c, i⟩, rest, hc⟩ := List.exists_cons_of_ne_nil (hattached.selecting hm)
  have hmem := SortedMap.mem_of_find (SortedMap.find_head hc)
  obtain rfl := hattached.only c hmem
  have hvisits : Server.visits s.server.connections [0] [] ≠ [] :=
    List.ne_nil_of_mem (Server.read_mem_visits.mpr ⟨List.mem_singleton_self 0, hmem⟩)
  have hstep : ∃ server, s.server.step write capacity (.select [0] []) = some server := by
    rw [Server.step, if_pos hm]
    by_cases hn : s.server.nudge = []
    · rw [if_neg (not_not.mpr hn), if_pos hvisits]
      exact ⟨_, rfl⟩
    · rw [if_pos hn]
      exact ⟨_, rfl⟩
  obtain ⟨server, hserver⟩ := hstep
  refine ⟨.server (.select [0] []), { s with server }, List.mem_singleton_self 0, ?_⟩
  rw [step, if_pos h.alive]
  unfold serverStep
  dsimp only
  rw [if_pos fun _ => .inr h.closed, hserver]
  rfl

theorem deserted_visit (h : Closing loads write capacity s) {v : Visit} {todo : List Visit}
    {closed : SortedSet ℤ}
    (hm : s.server.main = .conns ⟨v :: todo, closed⟩) :
    ∃ a s', Deserted s a ∧ step loads write capacity s a = some s' := by
  cases v with
  | write c =>
    have hstep : ∃ server, s.server.step write capacity (.connWrite none) = some server := by
      simp only [Server.step, hm]
      exact ⟨_, rfl⟩
    obtain ⟨server, hserver⟩ := hstep
    refine ⟨.server (.connWrite none), { s with server }, trivial, ?_⟩
    rw [step, if_pos h.alive]
    simp only [serverStep]
    rw [if_pos h.closed, hserver]
    rfl
  | read c =>
    cases hrequests : s.requests with
    | nil =>
      have hstep : ∃ server, s.server.step write capacity (.connRead (some [])) = some server := by
        simp only [Server.step, hm]
        exact ⟨_, rfl⟩
      obtain ⟨server, hserver⟩ := hstep
      refine ⟨.server (.connRead (some [])), { s with server }, by simp [Deserted], ?_⟩
      rw [step, if_pos h.alive]
      simp only [serverStep]
      rw [if_pos ⟨hrequests, h.closed⟩, hserver]
      rfl
    | cons b bs =>
      have hattached := attached_of_reachable (server_reachable h.reachable)
      have hmem := hattached.reads ⟨.read c :: todo, closed⟩ (by rw [hm]; rfl) c
        (List.mem_cons_self ..)
      obtain ⟨i, hi⟩ := SortedMap.mem_iff_exists.mp hmem
      have hstep : ∃ server, s.server.step write capacity (.connRead (some [b])) = some server := by
        simp only [Server.step, hm, Server.connRead, hi]
        rw [if_pos (by simp [Server.maxToRead])]
        exact ⟨_, rfl⟩
      obtain ⟨server, hserver⟩ := hstep
      have hahead : [b] <+: s.requests := ⟨bs, hrequests.symm⟩
      refine ⟨.server (.connRead (some [b])), { s with server, requests := s.requests.drop 1 },
        by simp [Deserted], ?_⟩
      rw [step, if_pos h.alive]
      simp only [serverStep]
      rw [if_pos hahead, hserver]
      rfl

theorem Closing.moves (h : Closing loads write capacity s) :
    Server.Broken capacity s.server ∨ ∃ a s', Deserted s a ∧ Remote.step loads write capacity s a =
      some s' := by
  by_cases hstopping : s.server.main = .stopping
  · obtain ⟨server, hs⟩ := Server.stop_isSome write capacity h.engaged hstopping
    exact .inr (deserted_server h.alive hs trivial (by simp) (by simp) (by simp))
  · have hlooping : Server.ended s.server.main = false :=
      Server.looping_of_serving h.serving hstopping
    by_cases hselect : s.server.main = .select
    · exact .inr (deserted_select h hselect)
    · by_cases hvisit : ∀ pass, s.server.main = .conns pass → pass.todo = []
      · rcases Server.internal_moves h.engaged hlooping hselect hvisit
          with hdead | ⟨b, server, hb, hs⟩
        · exact .inl (.inr hdead)
        · refine .inr (deserted_server h.alive hs ?_ ?_ ?_ ?_)
          · cases b with
            | select | connRead | interrupted => cases hb
            | readNudge => exact Server.Emptying.of_internal (s := s.server) hb
            | thread | shutdown | loop | dispatchResponses | connWrite | endPass | execute
            | writeNudge | endDispatch
            | stop | join | joined | reap => trivial
          · rintro _ _ rfl
            cases hb
          · rintro _ rfl
            cases hb
          · rintro _ rfl
            cases hb
      · obtain ⟨⟨todo, closed⟩, hm, hne⟩ : ∃ pass, s.server.main = .conns pass ∧
            pass.todo ≠ [] := by
          by_contra hnone
          exact hvisit fun pass hm => by_contra fun hne => hnone ⟨pass, hm, hne⟩
        obtain ⟨v, todo, rfl⟩ := List.exists_cons_of_ne_nil hne
        exact .inr (deserted_visit h hm)

/-! The end of the process. -/

end Remote

end Xaprun
