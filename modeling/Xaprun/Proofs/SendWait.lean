import Xaprun.Proofs.Callbacks
import Xaprun.Sanity.Reader
import Xaprun.Spec.SendWait

/-! When concurrent callers of `sendwait` can strand each other. A thread in `check` has the
lock, so nobody but itself can deliver its result while it waits; what goes wrong has gone wrong
when it enters `check` with its result already there. -/

namespace Xaprun.Client.SendWait

open Frames Runs

variable {T J : Type}

/-- What holds in every state: a thread in the loop has its result or a callback that will bring
it. -/
structure Sound (s : State T J) : Prop where
  looping : ∀ t, s.checking = some t → s.phase t = .looping
  pending : ∀ t, s.phase t = .looping → s.results t ≠ [] ∨ t ∈ s.conn.callbacks
  given : ∀ msgid ∈ s.conn.pending, ∃ n < s.conn.nextId, dec n = msgid

theorem Sound.unstranded {s : State T J} (h : Sound s)
    (hu : ∀ t, s.checking = some t → s.results t = []) :
    Unstranded s where
  undelivered := hu
  finished := fun hempty => by
    cases hc : s.checking with
    | none => rfl
    | some t =>
      rcases h.pending t (h.looping t hc) with hr | hp
      · exact absurd (hu t hc) hr
      · simp [Connection.callbacks, hempty] at hp

/-! What the steps keep. -/

theorem given_of_kept {conn conn' : Connection T} {invoked : List (T × Result J)}
    (hk : Kept conn conn' invoked)
    (h : ∀ msgid ∈ conn.pending, ∃ n < conn.nextId, dec n = msgid) :
    ∀ msgid ∈ conn'.pending, ∃ n < conn'.nextId, dec n = msgid := by
  intro msgid hmem
  obtain ⟨e, he, rfl⟩ := List.mem_map.mp (AList.mem_keys.mp hmem)
  rw [hk.nextId]
  exact h e.1 (AList.mem_keys.mpr (List.mem_map_of_mem (hk.entries he)))

theorem sound_init : Sound (init T J) where
  looping := by simp [init]
  pending := by simp [init]
  given := by simp [init, Connection.init]

theorem kept_eof (conn : Connection T) (msg : Bytes) :
    Kept (J := J) conn
      ((failed conn msg).andThen (J := J) [] fun conn => ⟨conn, [], [], none⟩).conn
      ((failed conn msg).andThen [] fun conn => ⟨conn, [], [], none⟩).invoked := kept_cleanup conn

/-! Waiting for bytes. -/

theorem pass_eq_more (loads : Bytes → Option J) (conn : Connection T) :
    (∃ conn', pass loads conn = .more conn') ↔ complete conn = false := by
  rw [← front_eq_more]
  exact exists_congr fun conn' => pass_eq_more_iff

/-- A call of `check` waits for bytes exactly when the buffer is not complete, and has then
invoked nothing. -/
theorem check_waits (loads : Bytes → Option J) (conn : Connection T) :
    ((check loads conn []).outcome = none ↔ complete conn = false) ∧
      ((check loads conn []).outcome = none → (check loads conn []).invoked = []) := by
  rw [← pass_eq_more loads conn]
  unfold check
  cases pass loads conn with
  | more conn' => simp [Pass.andThen]
  | handled conn' cb result => simp [Pass.andThen]
  | failed conn' invoked msg => simp [Pass.andThen]

variable [DecidableEq T]

theorem deliver_apply (invoked : List (T × Result J)) (t : T) :
    ∀ results : T → List (Result J),
      deliver results invoked t = results t ++ (invoked.filter (·.1 = t)).map Prod.snd := by
  induction invoked with
  | nil => intro results; simp [deliver]
  | cons f invoked ih =>
    intro results
    have hcons : deliver results (f :: invoked) =
        deliver (Function.update results f.1 (results f.1 ++ [f.2])) invoked := rfl
    rw [hcons, ih]
    by_cases hf : f.1 = t
    · subst hf; simp
    · have hne : t ≠ f.1 := fun he => hf he.symm
      simp [hf, hne]

theorem deliver_ne_nil {results : T → List (Result J)} {invoked : List (T × Result J)} {t : T}
    (h : results t ≠ [] ∨ t ∈ invoked.map Prod.fst) : deliver results invoked t ≠ [] := by
  rw [deliver_apply]
  rcases h with h | h
  · simp [h]
  · obtain ⟨f, hf, rfl⟩ := List.mem_map.mp h
    have : f.2 ∈ (invoked.filter (·.1 = f.1)).map Prod.snd :=
      List.mem_map_of_mem (List.mem_filter.mpr ⟨hf, by simp⟩)
    exact List.append_ne_nil_of_right_ne_nil _ (List.ne_nil_of_mem this)

theorem pending_of_kept {s : State T J} (h : Sound s) {conn : Connection T}
    {invoked : List (T × Result J)}
    (hk : Kept s.conn conn invoked) {t : T} (ht : s.phase t = .looping) :
    deliver s.results invoked t ≠ [] ∨ t ∈ conn.callbacks := by
  rcases h.pending t ht with hr | hp
  · exact .inl (deliver_ne_nil (.inl hr))
  · rcases List.mem_append.mp (hk.ledger.mem_iff.mp hp) with hi | hc
    · exact .inl (deliver_ne_nil (.inr hi))
    · exact .inr hc

theorem Sound.resume {s : State T J} (h : Sound s) {t : T} (ht : s.phase t = .looping)
    {c : Checked T J}
    (hk : Kept s.conn c.conn c.invoked) : Sound (resume s t c) := by
  unfold SendWait.resume
  cases c.outcome with
  | none =>
    refine ⟨fun t' ht' => ?_, fun t' ht' => pending_of_kept h hk ht', given_of_kept hk h.given⟩
    obtain rfl : t = t' := Option.some.inj ht'
    exact ht
  | some returned =>
    refine ⟨fun t' ht' => by simp at ht', fun t' ht' => pending_of_kept h hk ?_,
      given_of_kept hk h.given⟩
    by_cases he : t' = t
    · rw [he]; exact ht
    · simpa [he] using ht'

theorem Sound.sendwait {s : State T J} (h : Sound s) (hfree : s.checking = none) (t : T)
    (method target payload : Bytes) : Sound (sendwait s t method target payload) := by
  have hfresh : dec s.conn.nextId ∉ s.conn.pending := fun hmem => by
    obtain ⟨n, hn, heq⟩ := h.given _ hmem
    exact absurd (dec_injective heq) (by omega)
  -- a thread other than `t` has what it had before
  have hother : ∀ {phase : Phase J} {t'}, t' ≠ t → Function.update s.phase t phase t' = .looping →
      Function.update s.results t [] t' ≠ [] ∨ t' ∈ s.conn.callbacks := fun he ht' => by
    rw [Function.update_of_ne he] at ht' ⊢
    exact h.pending _ ht'
  unfold SendWait.sendwait
  rcases send_cases s.conn method target payload t with ⟨-, heq⟩ | ⟨-, heq⟩ | ⟨-, written, heq⟩
  · rw [heq]
    exact h
  · rw [heq]
    refine ⟨fun t' ht' => by simp [hfree] at ht', fun t' ht' => ?_, h.given⟩
    by_cases he : t' = t
    · exact .inl (deliver_ne_nil (.inr (by simp [he])))
    · rcases hother he ht' with hr | hp
      · exact .inl (deliver_ne_nil (.inl hr))
      · exact .inr hp
  · rw [heq]
    refine ⟨fun t' ht' => by simp [hfree] at ht', fun t' ht' => ?_, fun msgid hmem => ?_⟩
    · simp only [Connection.callbacks, AList.entries_insert_of_notMem hfresh, List.map_cons,
        List.mem_cons]
      by_cases he : t' = t
      · exact .inr (.inl he)
      · rcases hother he ht' with hr | hp
        · exact .inl (deliver_ne_nil (.inl hr))
        · exact .inr (.inr hp)
    · rcases (AList.mem_insert _).mp hmem with rfl | hmem
      · exact ⟨s.conn.nextId, Nat.lt_succ_self _, rfl⟩
      · obtain ⟨n, hn, heq⟩ := h.given msgid hmem
        exact ⟨n, Nat.lt_succ_of_lt hn, heq⟩

/-! The steps. -/

variable {loads : Bytes → Option J}

/-- What a step can do: only the steps of a thread in `check` and of one that calls it touch the
lock. -/
theorem step_cases {s s' : State T J} {a : Act T} (hs : step loads s a = some s') :
    (∃ t method target payload, a = .sendwait t method target payload ∧ s.checking = none ∧
      s' = sendwait s t method target payload) ∨
    (∃ t, a = .check t ∧ s.checking = none ∧ s.phase t = .looping ∧
      s' = resume s t (check loads s.conn [])) ∨
    (∃ t n, a = .read n ∧ s.checking = some t ∧
      s' = resume { s with wire := s.wire.drop n } t
        (check loads { s.conn with readBuf := s.conn.readBuf ++ s.wire.take n } [])) ∨
    (∃ t, a = .eof ∧ s.checking = some t ∧
      s' = resume s t ((failed s.conn (text "Connection closed unexpectedly")).andThen []
        fun conn => ⟨conn, [], [], none⟩)) ∨
    (a = .close ∧ s.checking = none ∧
      s' = { s with
        conn := (close (J := J) s.conn).1, results := deliver s.results (close s.conn).2 }) ∨
    (∃ msgid status payload, a = .answer msgid status payload ∧
      s' = { s with
        unanswered := s.unanswered.erase msgid
        wire := s.wire ++ sendMsgResponse msgid status payload }) := by
  cases a with
  | sendwait t method target payload =>
    simp only [step] at hs
    split at hs
    · cases hs
    · cases hs
    · exact .inl ⟨t, method, target, payload, rfl, ‹_›, (Option.some.inj hs).symm⟩
  | check t =>
    simp only [step] at hs
    split at hs
    · exact .inr (.inl ⟨t, rfl, ‹_›, ‹_›, (Option.some.inj hs).symm⟩)
    · cases hs
  | read n =>
    simp only [step] at hs
    split at hs
    · split at hs
      · exact .inr (.inr (.inl ⟨_, n, rfl, ‹_›, (Option.some.inj hs).symm⟩))
      · cases hs
    · cases hs
  | eof =>
    simp only [step] at hs
    split at hs
    · split at hs
      · exact .inr (.inr (.inr (.inl ⟨_, rfl, ‹_›, (Option.some.inj hs).symm⟩)))
      · cases hs
    · cases hs
  | close =>
    simp only [step] at hs
    split at hs
    · exact .inr (.inr (.inr (.inr (.inl ⟨rfl, ‹_›, (Option.some.inj hs).symm⟩))))
    · cases hs
  | answer msgid status payload =>
    simp only [step] at hs
    split at hs
    · exact .inr
        (.inr (.inr (.inr (.inr ⟨msgid, status, payload, rfl, (Option.some.inj hs).symm⟩))))
    · cases hs

theorem Sound.step {s s' : State T J} {a : Act T} (h : Sound s) (hs : step loads s a = some s') :
    Sound s' := by
  obtain ⟨t, method, target, payload, -, hfree, rfl⟩ | ⟨t, -, -, ht, rfl⟩ | ⟨t, n, -, hc, rfl⟩ |
    ⟨t, -, hc, rfl⟩ | ⟨-, hfree, rfl⟩ | ⟨msgid, status, payload, -, rfl⟩ := step_cases hs
  · exact h.sendwait hfree t method target payload
  · exact h.resume ht (keeps_check loads [] s.conn).kept
  · have hread : Kept (J := J) s.conn { s.conn with
        readBuf := s.conn.readBuf ++ s.wire.take n } [] :=
      .of_eq rfl rfl rfl
    have hwire : Sound { s with wire := s.wire.drop n } := ⟨h.looping, h.pending, h.given⟩
    exact hwire.resume (h.looping t hc) (hread.trans (keeps_check loads [] _).kept)
  · exact h.resume (h.looping t hc) (kept_eof s.conn _)
  · have hk := kept_cleanup (J := J) s.conn
    exact ⟨fun t ht => by simp [hfree] at ht, fun t ht => pending_of_kept h hk ht,
      given_of_kept hk h.given⟩
  · exact ⟨h.looping, h.pending, h.given⟩

theorem sound_of_reachable {s : State T J} (h : Reachable (step loads) free (init T J) s) :
    Sound s :=
  h.invariant sound_init fun _ _ _ _ hs hi => hi.step hs

/-- A thread that goes on with `check` is not stranded: the call returns, or it has invoked
nothing and the thread's result was not there before. -/
theorem undelivered_resume {s : State T J} {t : T} {c : Checked T J}
    (hc : c.outcome = none → c.invoked = [] ∧ s.results t = []) :
    ∀ t', (resume s t c).checking = some t' → (resume s t c).results t' = [] := by
  intro t' ht'
  unfold resume at ht' ⊢
  cases hout : c.outcome with
  | none =>
    rw [hout] at ht'
    obtain rfl : t = t' := Option.some.inj ht'
    obtain ⟨hnone, hr⟩ := hc hout
    simpa [hnone, deliver] using hr
  | some returned =>
    rw [hout] at ht'
    cases ht'

theorem unstranded_step {s s' : State T J} {a : Act T} (h : Sound s) (hs : step loads s a = some s')
    (hu : Unstranded s) : Unstranded s' ↔ Prompt s a := by
  have hsound := h.step hs
  obtain ⟨t, method, target, payload, rfl, hfree, rfl⟩ | ⟨t, rfl, hfree, -, rfl⟩ |
    ⟨t, n, rfl, hc, rfl⟩ |
    ⟨t, rfl, hc, rfl⟩ | ⟨rfl, hfree, rfl⟩ | ⟨msgid, status, payload, rfl, rfl⟩ := step_cases hs
  · refine iff_of_true (hsound.unstranded fun t' ht' => ?_) trivial
    have hsame : (sendwait s t method target payload).checking = s.checking := by
      unfold sendwait
      split <;> rfl
    simp [hsame, hfree] at ht'
  · obtain ⟨hwaits, hnone⟩ := check_waits loads s.conn
    constructor
    · intro hu' hr
      by_contra hcomplete
      have hout := hwaits.mpr (by simpa using hcomplete)
      apply hr
      have := hu'.undelivered t (by simp [resume, hout])
      simpa [resume, hout, hnone hout, deliver] using this
    · intro hprompt
      refine hsound.unstranded (undelivered_resume fun hout => ⟨hnone hout, ?_⟩)
      by_contra hr
      have hcomplete := hprompt hr
      rw [hwaits.mp hout] at hcomplete
      cases hcomplete
  · refine iff_of_true (hsound.unstranded (undelivered_resume fun hout => ?_)) trivial
    exact ⟨(check_waits loads _).2 hout, hu.undelivered t hc⟩
  · exact iff_of_true (hsound.unstranded
      (undelivered_resume fun hout => by simp [failed, Pass.andThen] at hout)) trivial
  · exact iff_of_true (hsound.unstranded fun t' ht' => by simp [hfree] at ht') trivial
  · exact iff_of_true (hsound.unstranded hu.undelivered) trivial

/-- In a run of threads that call `sendwait`, nobody is ever stranded exactly when every thread
that calls `check` has no result yet or finds a complete response in the buffer. -/
theorem sendwait_unstranded_iff (loads : Bytes → Option J) {as : List (Act T)} {s : State T J}
    (h : Run (step loads) free (init T J) as s) :
    (∀ bs t, bs <+: as → Run (step loads) free (init T J) bs t → Unstranded t) ↔
      Run (step loads) Prompt (init T J) as s := by
  refine (and_iff_right h).symm.trans (h.guard_iff (sound_init.unstranded (by simp [init])) ?_)
  intro s a s' hreach hs hu
  exact (and_iff_right trivial).trans
    (unstranded_step (sound_of_reachable (hreach.mono fun _ _ _ => trivial)) hs hu)

instance (s : State T J) : (a : Act T) → Decidable (Prompt s a)
  | .check t => inferInstanceAs (Decidable (s.results t ≠ [] → complete s.conn = true))
  | .sendwait .. | .read _ | .eof | .close | .answer .. => inferInstanceAs (Decidable True)

/-- Two callers of which the second sends when the first has its answer. -/
def inTurn : List (Act Bool) :=
  [.sendwait false (text "G") (text "version") [], .check false,
    .answer (text "0") (byte 'S') (text "0.1"),
    .read 8, .sendwait true (text "G") (text "version") [], .check true]

theorem sendwait_unstranded_iff_inTurn :
    ∃ s, Run (step fun _ => (none : Option Unit)) free (init Bool Unit) inTurn s ∧
      s.checking = some true ∧
      ∀ bs t, bs <+: inTurn → Run (step fun _ => (none : Option Unit)) free (init Bool Unit) bs t →
        Unstranded t := by
  have hrun : ∃ s, exec (step fun _ => (none : Option Unit)) Prompt (init Bool Unit) inTurn =
    some s ∧
      s.checking = some true := ⟨_, rfl, rfl⟩
  obtain ⟨s, hexec, hc⟩ := hrun
  have hprompt := run_of_exec hexec
  have hfree : Run _ free _ _ _ := hprompt.mono fun _ _ _ => trivial
  exact ⟨s, hfree, hc, (sendwait_unstranded_iff _ hfree).mpr hprompt⟩

/-- Two callers of whom each handles the answer of the other. -/
def twoCallers : List (Act Bool) :=
  [.sendwait false (text "G") (text "version") [], .sendwait true (text "G") (text "version") [],
    .answer (text "1") (byte 'S') (text "0.1"), .check false, .read 8, .check true,
    .answer (text "0") (byte 'S') (text "0.1"), .read 8, .check false]

/-- At the end both answers have been delivered, and the first caller waits for a third. -/
theorem sendwait_strands :
    ¬ ∀ s, Reachable (step fun _ => (none : Option Unit)) free (init Bool Unit) s →
      Unstranded s := by
  intro h
  have hrun : ∃ s, exec (step fun _ => (none : Option Unit)) free (init Bool Unit) twoCallers =
    some s ∧
      s.checking = some false ∧ s.results false = [.dict ⟨1, text "0.1"⟩] :=
    exists_of_exec (by decide +kernel)
  obtain ⟨s, hexec, hc, hr⟩ := hrun
  have := (h s (reachable_of_exec hexec)).undelivered false hc
  rw [hr] at this
  cases this

end Xaprun.Client.SendWait
