import Xaprun.Sanity.Check

/-! Every callback passed to `send` is in `pending` or has been invoked, and that once. The
callbacks of all calls are kept as in a ledger: each of them stands in exactly one of the two
places. -/

namespace Xaprun.Client.Session

open Frames Runs

variable {κ J : Type}

def numbered (calls : List (Passed κ)) : List (ℕ × κ) := calls.mapIdx fun n c => (n, c.callback)

theorem mem_numbered {calls : List (Passed κ)} {n : ℕ} {cb : κ} :
    (n, cb) ∈ numbered calls ↔ ∃ c, calls[n]? = some c ∧ c.callback = cb := by
  simp only [numbered, List.mem_mapIdx, Prod.mk.injEq, List.getElem?_eq_some_iff]
  constructor
  · rintro ⟨i, hi, rfl, rfl⟩; exact ⟨calls[i], ⟨hi, rfl⟩, rfl⟩
  · rintro ⟨c, ⟨hi, rfl⟩, rfl⟩; exact ⟨n, hi, rfl, rfl⟩

theorem countP_numbered {calls : List (Passed κ)} {n : ℕ} (h : n < calls.length) :
    (numbered calls).countP (·.1 = n) = 1 := by
  have hfst : (numbered calls).map Prod.fst = List.range calls.length := by
    apply List.ext_getElem
    · simp [numbered]
    · simp [numbered]
  have hcount := List.count_eq_one_of_mem List.nodup_range (List.mem_range.mpr h)
  rw [← hfst, List.count, List.countP_map] at hcount
  simpa [Function.comp_def, beq_eq_decide] using hcount

structure Accounted (s : Session κ J) : Prop where
  ledger : (s.conn.callbacks ++ s.fired.map Prod.fst).Perm (numbered s.calls)
  own : ∀ e ∈ s.conn.pending.entries, ∃ c, s.calls[e.2.1]? = some c ∧ c.msgid = some e.1
  ids : s.calls.filterMap Passed.msgid = (List.range s.conn.nextId).map dec
  closed : s.conn.closed = true → s.conn.pending = ∅

theorem accounted_init : Accounted (init κ J) where
  ledger := by simp [init, Connection.init, Connection.callbacks, numbered]
  own := by simp [init, Connection.init]
  ids := by simp [init, Connection.init]
  closed := fun _ => rfl

theorem Accounted.kept {s : Session κ J} (h : Accounted s) {conn : Connection (ℕ × κ)}
    {invoked : List ((ℕ × κ) × Result J)} (hk : Kept s.conn conn invoked) :
    Accounted { s with conn, fired := s.fired ++ invoked } where
  ledger := by
    refine List.Perm.trans ?_ h.ledger
    rw [List.map_append, ← List.append_assoc]
    refine (List.perm_append_comm.trans ?_).trans (hk.ledger.symm.append_right _)
    rw [List.append_assoc]
  own := fun e he => h.own e (hk.entries he)
  ids := by rw [hk.nextId]; exact h.ids
  closed := fun hc => by
    rcases hk.closed with hsame | ⟨-, hempty⟩
    · refine AList.ext (List.eq_nil_of_subset_nil ?_)
      have := hk.entries
      rwa [h.closed (hsame.symm.trans hc)] at this
    · exact hempty

theorem Accounted.dec_of_mem {s : Session κ J} (h : Accounted s) {msgid : Bytes}
    (hmem : msgid ∈ s.conn.pending) : ∃ n < s.conn.nextId, dec n = msgid := by
  obtain ⟨e, he, rfl⟩ := List.mem_map.mp (AList.mem_keys.mp hmem)
  obtain ⟨c, hc, hid⟩ := h.own e he
  have hgiven : e.1 ∈ s.calls.filterMap Passed.msgid :=
    List.mem_filterMap.mpr ⟨c, List.mem_of_getElem? hc, hid⟩
  rw [h.ids] at hgiven
  obtain ⟨n, hn, heq⟩ := List.mem_map.mp hgiven
  exact ⟨n, List.mem_range.mp hn, heq⟩

theorem Accounted.fresh {s : Session κ J} (h : Accounted s) :
    dec s.conn.nextId ∉ s.conn.pending := by
  intro hmem
  obtain ⟨n, hn, heq⟩ := h.dec_of_mem hmem
  exact absurd (dec_injective heq) (by omega)

theorem send_cases (s : Session κ J) (r : Request κ) :
    (¬ (r.method <:+: text "GPUD" ∧ r.method.length = 1 ∧ space ∉ r.target) ∧ s.send r = s) ∨
    (s.conn.closed = true ∧ s.send r =
      { s with
        calls := s.calls ++ [⟨none, r.callback⟩]
        fired := s.fired ++ [((s.calls.length, r.callback), .dict closedResult)] }) ∨
    (s.conn.closed = false ∧ s.send r =
      { s with
        conn := { s.conn with
          pending := s.conn.pending.insert (dec s.conn.nextId) (s.calls.length, r.callback)
          nextId := s.conn.nextId + 1 }
        calls := s.calls ++ [⟨some (dec s.conn.nextId), r.callback⟩] }) := by
  unfold Session.send
  rcases Client.send_cases s.conn r.method r.target r.payload (s.calls.length, r.callback) with
    ⟨hinvalid, heq⟩ | ⟨hclosed, heq⟩ | ⟨hopen, written, heq⟩
  · exact .inl ⟨hinvalid, by rw [heq]⟩
  · exact .inr (.inl ⟨hclosed, by rw [heq]; simp [hclosed]⟩)
  · exact .inr (.inr ⟨hopen, by rw [heq]; simp [hopen]⟩)

theorem numbered_concat (calls : List (Passed κ)) (c : Passed κ) :
    numbered (calls ++ [c]) = numbered calls ++ [(calls.length, c.callback)] := by
  simp [numbered, List.mapIdx_append]

theorem Accounted.own_concat {s : Session κ J} (h : Accounted s) (c : Passed κ)
    {e : Sigma fun _ : Bytes => ℕ × κ} (he : e ∈ s.conn.pending.entries) :
    ∃ d, (s.calls ++ [c])[e.2.1]? = some d ∧ d.msgid = some e.1 := by
  obtain ⟨d, hd, hid⟩ := h.own e he
  have hlt := (List.getElem?_eq_some_iff.mp hd).1
  exact ⟨d, by rw [List.getElem?_append_left hlt, hd], hid⟩

theorem Accounted.send {s : Session κ J} (h : Accounted s) (r : Request κ) :
    Accounted (s.send r) := by
  rcases s.send_cases r with ⟨-, heq⟩ | ⟨hclosed, heq⟩ | ⟨hopen, heq⟩
  · rwa [heq]
  · rw [heq]
    constructor
    · simp only [List.map_append, List.map_cons, List.map_nil, numbered_concat, ← List.append_assoc]
      exact h.ledger.append_right _
    · exact fun e he => h.own_concat _ he
    · simpa using h.ids
    · exact fun _ => h.closed hclosed
  · rw [heq]
    constructor
    · simp only [Connection.callbacks, AList.entries_insert_of_notMem h.fresh, List.map_cons,
        List.cons_append, numbered_concat]
      exact (List.perm_append_singleton _ _).symm.trans (h.ledger.append_right _)
    · intro e he
      rw [AList.entries_insert_of_notMem h.fresh] at he
      rcases List.mem_cons.mp he with rfl | he
      · exact ⟨_, List.getElem?_concat_length, rfl⟩
      · exact h.own_concat _ he
    · simp [h.ids, List.range_succ]
    · intro hc
      exact absurd hc (by simp [hopen])

theorem Accounted.step {loads : Bytes → Option J} {s s' : Session κ J} {a : Act κ} (h : Accounted s)
    (hs : s.step loads a = some s') : Accounted s' := by
  cases a with
  | send r =>
    obtain rfl : s.send r = s' := by simpa [Session.step] using hs
    exact h.send r
  | check ticks =>
    obtain ⟨_, -, rfl⟩ := Option.map_eq_some_iff.mp hs
    exact h.kept (keeps_check loads ticks s.conn).kept
  | close =>
    obtain rfl : s.close = s' := by simpa [Session.step] using hs
    exact h.kept (kept_cleanup s.conn)

theorem accounted_of_reachable {loads : Bytes → Option J} {s : Session κ J}
    (h : Reachable (step loads) free (init κ J) s) : Accounted s :=
  h.invariant accounted_init fun _ _ _ _ hs hi => hi.step hs

theorem Accounted.count {s : Session κ J} (h : Accounted s) {n : ℕ} (hn : n < s.calls.length) :
    s.conn.callbacks.countP (·.1 = n) + s.invocations n = 1 := by
  rw [← countP_numbered hn, ← h.ledger.countP_eq, List.countP_append, List.countP_map]
  rfl

theorem mem_callbacks {conn : Connection κ} {msgid : Bytes} {cb : κ}
    (h : conn.pending.lookup msgid = some cb) : cb ∈ conn.callbacks :=
  List.mem_map.mpr ⟨⟨msgid, cb⟩, AList.mem_lookup_iff.mp h, rfl⟩

theorem Accounted.waiting {s : Session κ J} (h : Accounted s) {n : ℕ} {c : Passed κ}
    (hc : s.calls[n]? = some c) (hn : s.invocations n = 0) : s.Waiting n c where
  pending := by
    have hmem : (n, c.callback) ∈ s.conn.callbacks ++ s.fired.map Prod.fst :=
      h.ledger.mem_iff.mpr (mem_numbered.mpr ⟨c, hc, rfl⟩)
    rcases List.mem_append.mp hmem with hp | hf
    · obtain ⟨e, he, heq⟩ := List.mem_map.mp hp
      exact ⟨e.1, AList.mem_lookup_iff.mpr (heq ▸ he)⟩
    · obtain ⟨f, hf, heq⟩ := List.mem_map.mp hf
      exact absurd (List.countP_eq_zero.mp hn f hf) (by simp [heq])
  own := by
    intro msgid cb hlookup
    obtain ⟨d, hd, hid⟩ := h.own _ (AList.mem_lookup_iff.mp hlookup)
    obtain rfl : c = d := Option.some.inj (hc.symm.trans hd)
    exact hid
  invocations := hn

theorem Accounted.fired {s : Session κ J} (h : Accounted s) {n : ℕ} {c : Passed κ}
    (hc : s.calls[n]? = some c) (hn : s.invocations n ≠ 0) : s.Fired n c := by
  have hcount := h.count (List.getElem?_eq_some_iff.mp hc).1
  have hgone : s.conn.callbacks.countP (·.1 = n) = 0 := by omega
  refine ⟨fun msgid cb hlookup => ?_, ?_, by omega⟩
  · exact absurd (List.countP_eq_zero.mp hgone _ (mem_callbacks hlookup)) (by simp)
  · have hmem : (n, c.callback) ∈ s.conn.callbacks ++ s.fired.map Prod.fst :=
      h.ledger.mem_iff.mpr (mem_numbered.mpr ⟨c, hc, rfl⟩)
    rcases List.mem_append.mp hmem with hp | hf
    · exact absurd (List.countP_eq_zero.mp hgone _ hp) (by simp)
    · obtain ⟨⟨_, result⟩, hf, rfl⟩ := List.mem_map.mp hf
      exact ⟨result, hf⟩

theorem Accounted.fired_of_closed {s : Session κ J} (h : Accounted s)
    (hclosed : s.conn.closed = true)
    {n : ℕ} {c : Passed κ} (hc : s.calls[n]? = some c) : s.Fired n c := by
  have hcount := h.count (List.getElem?_eq_some_iff.mp hc).1
  have hnone : s.conn.callbacks = [] := by simp [Connection.callbacks, h.closed hclosed]
  rw [hnone, List.countP_nil] at hcount
  exact h.fired hc (by omega)

theorem send_records (s : Session κ J) {r : Request κ}
    (hm : r.method ∈ [text "G", text "P", text "U", text "D"])
    (ht : space ∉ r.target) : ∃ msgid, (s.send r).calls = s.calls ++ [⟨msgid, r.callback⟩] := by
  rcases s.send_cases r with ⟨hinvalid, -⟩ | ⟨-, heq⟩ | ⟨-, heq⟩
  · have hone : ∀ m ∈ [text "G", text "P", text "U", text "D"], m <:+: text "GPUD" ∧
      m.length = 1 := by decide
    exact absurd ⟨(hone _ hm).1, (hone _ hm).2, ht⟩ hinvalid
  · exact ⟨none, by rw [heq]⟩
  · exact ⟨some (dec s.conn.nextId), by rw [heq]⟩

/-- Between the calls of `send`, `check` and `close`, in whatever order the threads make them
and whatever the reads return: every callback is in `pending` under its own id and has not been
invoked, or it is not in `pending` and has been invoked once; no id is given twice; and
`close` and `_failed` leave a closed connection, where every callback has been invoked. -/
theorem callbacks_once (loads : Bytes → Option J) {s : Session κ J}
    (h : Reachable (step loads) free (init κ J) s) :
    (∀ n c, s.calls[n]? = some c → s.Waiting n c ∨ s.Fired n c) ∧
    (s.calls.filterMap Passed.msgid).Nodup ∧
    (s.conn.closed = true → s.conn.pending = ∅ ∧ ∀ n c, s.calls[n]? = some c → s.Fired n c) ∧
    (∀ s', s.step loads .close = some s' → s'.conn.closed = true) ∧
    (∀ ticks msg s', (Client.check loads s.conn ticks).outcome = some (.raised msg) →
      s.step loads (.check ticks) = some s' → s'.conn.closed = true) ∧
    (∀ r s', r.method ∈ [text "G", text "P", text "U", text "D"] → space ∉ r.target →
      s.step loads (.send r) = some s' → ∃ msgid, s'.calls = s.calls ++ [⟨msgid, r.callback⟩]) := by
  have hs := accounted_of_reachable h
  refine ⟨fun n c hc => ?_, ?_, fun hclosed =>
    ⟨hs.closed hclosed, fun n c hc => hs.fired_of_closed hclosed hc⟩,
    ?_, ?_, ?_⟩
  · by_cases hn : s.invocations n = 0
    · exact .inl (hs.waiting hc hn)
    · exact .inr (hs.fired hc hn)
  · rw [hs.ids]
    exact List.nodup_range.map dec_injective
  · intro s' hstep
    obtain rfl : s.close = s' := by simpa [Session.step] using hstep
    rfl
  · intro ticks msg s' hraised hstep
    obtain ⟨_, -, rfl⟩ := Option.map_eq_some_iff.mp hstep
    exact (keeps_check loads ticks s.conn).raised msg hraised
  · intro r s' hm ht hstep
    obtain rfl : s.send r = s' := by simpa [Session.step] using hstep
    exact s.send_records hm ht

def oneAnswered : List (Act Unit) :=
  [.send ⟨text "G", text "version", [], ()⟩, .send ⟨text "G", text "version", [], ()⟩,
    .check [.read (some (text "6 1 S0.1"))], .check [.expired], .check [.read none]]

theorem callbacks_once_oneAnswered :
    ∃ s, Reachable (step fun _ => (none : Option Unit)) free (init Unit Unit) s ∧
      s.fired = [((1, ()), .dict ⟨1, text "0.1"⟩), ((0, ()), .dict closedResult)] ∧
      s.conn.closed = true ∧ ∀ n c, s.calls[n]? = some c → s.Fired n c := by
  have hrun : ∃ s, exec (step fun _ => (none : Option Unit)) free (init Unit Unit) oneAnswered =
    some s ∧
      s.fired = [((1, ()), .dict ⟨1, text "0.1"⟩), ((0, ()), .dict closedResult)] ∧
      s.conn.closed = true := ⟨_, rfl, by decide, by decide⟩
  obtain ⟨s, hexec, hfired, hclosed⟩ := hrun
  have hreach := reachable_of_exec hexec
  exact ⟨s, hreach, hfired, hclosed, ((callbacks_once _ hreach).2.2.1 hclosed).2⟩

end Xaprun.Client.Session
