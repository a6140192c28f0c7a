import Xaprun.Sanity.Reader

/-! When `check` is strict about the framing of responses. `int` takes more than strings of digits
for numbers: a sign and white space around the digits. A length that it takes wrongly is used like
any other, and a negative one cuts the buffer from its end. -/

namespace Xaprun.Client.Reader

open Frames Runs

variable {κ J : Type} (loads : Bytes → Option J)

def Dead (conn : Connection κ) : Prop := conn.closed = true ∧ conn.pending = ∅

theorem Dead.kept {conn conn' : Connection κ} (h : Dead conn) {invoked : List (κ × Result J)}
    (hk : Kept conn conn' invoked) : Dead conn' ∧ invoked = [] := by
  obtain ⟨hclosed, hpending⟩ := h
  have hempty : conn.pending.entries = [] := by rw [hpending]; rfl
  refine ⟨⟨?_, AList.ext (List.eq_nil_of_subset_nil (hempty ▸ hk.entries))⟩, ?_⟩
  · rcases hk.closed with hsame | ⟨hc, -⟩
    · exact hsame.trans hclosed
    · exact hc
  · have hledger := hk.ledger
    rw [Connection.callbacks, hempty] at hledger
    have hnil := (List.append_eq_nil_iff.mp (List.nil_perm.mp hledger)).1
    exact List.map_eq_nil_iff.mp hnil

structure Sound (s : Reader κ) : Prop where
  holds : s.Holds
  closed : s.conn.closed = true → s.conn.pending = ∅

theorem closed_of_kept {conn conn' : Connection κ} {invoked : List (κ × Result J)}
    (hk : Kept conn conn' invoked)
    (h : conn.closed = true → conn.pending = ∅) (hc : conn'.closed = true) : conn'.pending = ∅ := by
  rcases hk.closed with hsame | ⟨-, hempty⟩
  · have hclosed := hsame.symm.trans hc
    exact ((Dead.kept ⟨hclosed, h hclosed⟩ hk).1).2
  · exact hempty

theorem takeWhile_space {text : Bytes} (h : space ∉ text) (rest : Bytes) :
    (text ++ space :: rest).takeWhile (· ≠ space) = text := by
  have hne : ∀ b ∈ text, decide (b ≠ space) = true :=
    fun b hb => decide_eq_true (fun he => h (he ▸ hb))
  rw [List.takeWhile_append_of_pos hne]
  simp

theorem holds_check {s : Reader κ} (hs : s.Holds) (ticks : List Tick) :
    Holds ⟨(check loads s.conn ticks).conn, s.fieldAfter ticks⟩ := by
  have hcomes := comes_check loads ticks s hs
  generalize handed s.conn ticks = m at hcomes
  -- a length that is left is the one of the text before the first space
  have hleft : ∀ {text rest : Bytes} {n : ℤ}, s.stream ticks = text ++ space :: rest →
    space ∉ text →
      int text = some n → ∀ n', some n = some n' → int (s.fieldAfter ticks) = some n' ∧
          space ∉ s.fieldAfter ticks := by
    intro text rest n hstream hspace hint n' hn'
    have hfield : s.fieldAfter ticks = text := by rw [fieldAfter, hstream, takeWhile_space hspace]
    rw [hfield, hint]
    exact ⟨hn', hspace⟩
  intro n' hn'
  dsimp only at hn' ⊢
  generalize check loads s.conn ticks = c at hcomes hn'
  rcases hcomes with ⟨_, -, hlen⟩ | ⟨_, text, rest, msg, -, -, -, hlen, -, -⟩ |
    ⟨_, text, rest, n, hstream, hspace, hint, -, hlen, -, -⟩ |
    ⟨_, text, rest, buf, n, hstream, hspace, hint, -, -, hlen⟩
  · rw [hlen] at hn'; cases hn'
  · rw [hlen] at hn'; cases hn'
  · exact hleft hstream hspace hint n' (hlen.symm.trans hn')
  · rcases hlen with hlen | hlen
    · rw [hlen] at hn'; cases hn'
    · exact hleft hstream hspace hint n' (hlen.symm.trans hn')

theorem step_send {s s' : Reader κ} {r : Request κ} (hs : s.step loads (.send r) = some s') :
    s' = s ∨ s.conn.closed = false ∧ s'.conn.closed = false ∧
      s'.conn.readMsgLen = s.conn.readMsgLen ∧
      s'.field = s.field := by
  unfold Reader.step at hs
  dsimp only at hs
  rcases Client.send_cases s.conn r.method r.target r.payload r.callback with
    ⟨-, heq⟩ | ⟨-, heq⟩ | ⟨hopen, written, heq⟩
  · rw [heq] at hs
    exact .inl (Option.some.inj hs).symm
  · rw [heq] at hs
    exact .inl (Option.some.inj hs).symm
  · rw [heq] at hs
    obtain rfl := Option.some.inj hs
    exact .inr ⟨hopen, hopen, rfl, rfl⟩

theorem Sound.step {s s' : Reader κ} {a : Act κ} (h : Sound s) (hs : s.step loads a = some s') :
    Sound s' := by
  cases a with
  | send r =>
    rcases step_send loads hs with rfl | ⟨-, hopen, hlen, hfield⟩
    · exact h
    · refine ⟨fun n hn => ?_, fun hc => absurd (hopen.symm.trans hc) (by decide)⟩
      rw [hfield]
      exact h.holds n (hlen.symm.trans hn)
  | check ticks =>
    obtain ⟨returned, -, rfl⟩ := Option.map_eq_some_iff.mp hs
    exact ⟨holds_check loads h.holds ticks,
      closed_of_kept (keeps_check loads ticks s.conn).kept h.closed⟩
  | close =>
    obtain rfl := Option.some.inj hs
    exact ⟨h.holds, fun _ => rfl⟩

theorem sound_init : Sound (init κ) := ⟨nofun, fun _ => rfl⟩

theorem sound_of_reachable {s : Reader κ} (h : Reachable (step loads) free (init κ) s) : Sound s :=
  h.invariant sound_init fun _ _ _ _ hs hsound => hsound.step loads hs

theorem dead_step {s s' : Reader κ} {a : Act κ} (h : Dead s.conn) (hs : s.step loads a = some s') :
    Dead s'.conn := by
  cases a with
  | send r =>
    rcases step_send loads hs with rfl | ⟨hopen, -⟩
    · exact h
    · exact absurd (hopen.symm.trans h.1) (by decide)
  | check ticks =>
    obtain ⟨returned, -, rfl⟩ := Option.map_eq_some_iff.mp hs
    exact (h.kept (keeps_check loads ticks s.conn).kept).1
  | close =>
    obtain rfl := Option.some.inj hs
    exact ⟨rfl, rfl⟩

theorem silent_of_dead {s s' : Reader κ} (h : Dead s.conn)
    (hreach : Reachable (step loads) free s s')
    (ticks : List Tick) : (check loads s'.conn ticks).invoked = [] := by
  have hdead : Dead s'.conn := hreach.invariant h fun _ _ _ _ hs hd => dead_step loads hd hs
  exact (hdead.kept (keeps_check loads ticks s'.conn).kept).2

theorem rejected_of_raised {s : Reader κ} (h : Sound s) {ticks : List Tick}
    (hraised : ∃ msg, (check loads s.conn ticks).outcome = some (.raised msg))
    (hinvoked : (check loads s.conn ticks).invoked = (cleanup s.conn).2) :
    let c := check loads s.conn ticks
    (∃ msg, c.outcome = some (.raised msg)) ∧
      c.invoked = s.conn.pending.entries.map (fun e => (e.2, .dict closedResult)) ∧
      ∀ s', Reachable (step loads) free ⟨c.conn, s.fieldAfter ticks⟩ s' →
        ∀ ticks', (check loads s'.conn ticks').invoked = [] := by
  obtain ⟨msg, hmsg⟩ := hraised
  have hkeeps := keeps_check loads ticks s.conn
  have hclosed := hkeeps.raised msg hmsg
  exact ⟨⟨msg, hmsg⟩, hinvoked, fun s' hreach =>
    silent_of_dead loads ⟨hclosed, closed_of_kept hkeeps.kept h.closed hclosed⟩ hreach⟩

theorem space_notMem_numeral {text : Bytes} (h : Numeral text) : space ∉ text := fun hmem =>
  absurd (h.2 space hmem) (by decide)

theorem strict_of_not_misread {s : Reader κ} (h : Sound s) {ticks : List Tick}
    (hread : ¬ s.Misread ticks) :
    s.Strict loads ticks := by
  have hcomes := comes_check loads ticks s h.holds
  refine ⟨fun m hm => ?_, fun text rest hstream hspace hnot => ?_⟩
  · rw [hm] at hcomes
    rcases hcomes with - | - | - | ⟨_, text, rest, buf, n, hstream, hspace, hint,
      ⟨extra, rfl⟩, hle, -⟩
    have hnumeral : Numeral text := by
      by_contra hnot
      exact hread ⟨text, _, n, hstream, hspace, hnot, hint, .inl (hle.trans (by simp))⟩
    obtain rfl : n = value text :=
      Option.some.inj (hint.symm.trans (int_of_isdigit hnumeral.1 hnumeral.2))
    have hle' : value text ≤ buf.length := by exact_mod_cast hle
    have hslice : sliceTo buf (value text) = buf.take (value text) := by simp [sliceTo, bound]
    refine ⟨text, buf.drop (value text) ++ extra, ?_, hnumeral, by simp [hslice, hle']⟩
    rw [hstream, hslice, ← List.append_assoc, List.take_append_drop]
  · have hsame : ∀ {text' rest'}, s.stream ticks = text' ++ space :: rest' → space ∉ text' →
        text' = text ∧ rest' = rest := fun hstream' hspace' =>
      append_cons_inj (hstream'.symm.trans hstream) hspace' hspace
    generalize handed s.conn ticks = m at hcomes
    generalize hc : check loads s.conn ticks = c at hcomes
    rcases hcomes with ⟨_, hnone, -⟩ | ⟨_, text', rest', msg, hstream', hspace', -, -, houtcome,
      hinvoked⟩ |
      ⟨_, text', rest', n, hstream', hspace', hint, -, -, heof, -⟩ |
      ⟨_, text', rest', buf, n, hstream', hspace', hint, hbuf, hle, -⟩
    · exact absurd (by rw [hstream]; simp) hnone
    · subst hc
      exact rejected_of_raised loads h ⟨msg, houtcome⟩ hinvoked
    · subst hc
      obtain ⟨rfl, rfl⟩ := hsame hstream' hspace'
      have hend : afterReads ticks = some (.read none) := by
        by_contra hne
        exact hread ⟨_, _, n, hstream, hspace, hnot, hint, .inr hne⟩
      obtain ⟨hraised, hinvoked⟩ := heof hend
      exact rejected_of_raised loads h hraised hinvoked
    · obtain ⟨rfl, rfl⟩ := hsame hstream' hspace'
      exact absurd ⟨_, _, n, hstream, hspace, hnot, hint,
        .inl (hle.trans (by exact_mod_cast hbuf.length_le))⟩ hread

theorem not_misread_of_strict {s : Reader κ} (h : Sound s) {ticks : List Tick}
    (hstrict : s.Strict loads ticks) :
    ¬ s.Misread ticks := by
  rintro ⟨text, rest, n, hstream, hspace, hnot, hint, hlong⟩
  have hsame : ∀ {text' rest'}, s.stream ticks = text' ++ space :: rest' → space ∉ text' →
      text' = text ∧ rest' = rest := fun hstream' hspace' =>
    append_cons_inj (hstream'.symm.trans hstream) hspace' hspace
  obtain ⟨⟨msg, hraised⟩, -⟩ := hstrict.rejected text rest hstream hspace hnot
  have hcomes := comes_check loads ticks s h.holds
  generalize hm : handed s.conn ticks = m at hcomes
  generalize check loads s.conn ticks = c at hcomes hraised
  rcases hcomes with ⟨_, hnone, -⟩ | ⟨_, text', rest', -, hstream', hspace', hint', -, -, -⟩ |
    ⟨_, text', rest', n', hstream', hspace', hint', hlt, -, -, hopen⟩ |
    ⟨_, text', rest', buf, n', hstream', hspace', hint', hbuf, hle, -⟩
  · exact absurd (by rw [hstream]; simp) hnone
  · obtain ⟨rfl, rfl⟩ := hsame hstream' hspace'
    rw [hint'] at hint
    cases hint
  · -- the call waits for a message, and does not raise
    obtain ⟨rfl, rfl⟩ := hsame hstream' hspace'
    obtain rfl : n' = n := Option.some.inj (hint'.symm.trans hint)
    rcases hlong with hle | hend
    · exact hlt hle
    · exact hopen hend msg hraised
  · -- a message is taken behind a text that is no numeral
    obtain ⟨digits, rest'', hstream'', hnumeral, -⟩ := hstrict.handed _ hm
    obtain ⟨rfl, -⟩ := append_cons_inj (hstream''.symm.trans hstream)
      (space_notMem_numeral hnumeral) hspace
    exact hnot hnumeral

/-- `check` is strict exactly if it does not misread the beginning of the stream. -/
theorem framing_strict_iff {s : Reader κ} (h : Reachable (step loads) free (init κ) s)
    (ticks : List Tick) :
    s.Strict loads ticks ↔ ¬ s.Misread ticks :=
  ⟨not_misread_of_strict loads (sound_of_reachable loads h),
    strict_of_not_misread loads (sound_of_reachable loads h)⟩

/-- A request, of whose answer the length comes first. -/
def lengthFirst : List (Act Unit) :=
  [.send ⟨text "G", text "version", [], ()⟩, .check [.read (some (text "6 0 ")), .expired]]

theorem framing_strict_lengthFirst :
    ∃ s, Reachable (step fun _ => (none : Option Unit)) free (init Unit) s ∧ s.field = text "6" ∧
      s.Strict (fun _ => (none : Option Unit)) [.read (some (text "S0.1"))] := by
  have hrun : ∃ s, exec (step fun _ => (none : Option Unit)) free (init Unit) lengthFirst = some s ∧
      s.field = text "6" ∧ s.stream [.read (some (text "S0.1"))] = text "6" ++ space ::
          text "0 S0.1" :=
    ⟨_, rfl, by decide, by decide⟩
  obtain ⟨s, hexec, hfield, hstream⟩ := hrun
  have hreach := reachable_of_exec hexec
  refine ⟨s, hreach, hfield, (framing_strict_iff _ hreach _).mpr ?_⟩
  rintro ⟨text', rest, n, hstream', hspace, hnot, -⟩
  obtain ⟨rfl, -⟩ := append_cons_inj (hstream.symm.trans hstream') (by decide) hspace
  exact hnot ⟨by decide, List.all_eq_true.mp (by decide)⟩

/-- A message behind a length with a sign is taken. -/
theorem framing_sign_delivered :
    ¬ ∀ s : Reader Unit, Reachable (step fun _ => (none : Option Unit)) free (init Unit) s →
      ∀ ticks, s.Strict (fun _ => (none : Option Unit)) ticks := by
  intro h
  have hrun : ∃ s, exec (step fun _ => (none : Option Unit)) free (init Unit)
      [.send ⟨text "G", text "version", [], ()⟩] = some s ∧
      handed s.conn [.read (some (text "+6 0 S0.1"))] = some (text "0 S0.1") ∧
      s.stream [.read (some (text "+6 0 S0.1"))] = text "+6" ++ space :: text "0 S0.1" :=
    ⟨_, rfl, by decide, by decide⟩
  obtain ⟨s, hexec, hhanded, hstream⟩ := hrun
  obtain ⟨digits, rest, hstream', hnumeral, -⟩ := (h s (reachable_of_exec hexec) _).handed _ hhanded
  obtain ⟨rfl, -⟩ := append_cons_inj (hstream.symm.trans hstream') (by decide)
    (space_notMem_numeral hnumeral)
  exact absurd (hnumeral.2 (byte '+') (by decide)) (by decide)

end Xaprun.Client.Reader
