import Xaprun.Proofs.Decoding
import Xaprun.Spec.Timed

/-! When a call of `check` sees a response that is there. The end time is looked at before the read,
so that with a timeout of zero nothing is ever read, and only what earlier calls have read is
delivered. The same happens with a positive timeout that is lost in the rounding of the sum. -/

namespace Xaprun.Client.Timed

open Frames Reader SendWait

variable {κ J : Type} (loads : Bytes → Option J)

theorem front_of_frame {s : Reader κ} (hs : s.Holds) {body extra : Bytes}
    (hframe : s.unread.dropWhile (· = space) = frame body ++ extra) :
    front s.conn =
      .message { s.conn with readMsgLen := some (body.length : ℤ), readBuf := body ++ extra }
        body.length := by
  have hbs : s.unread.dropWhile (· = space) = dec body.length ++ space :: (body ++ extra) := by
    rw [hframe, frame_append]
  rw [front_of_text hs hbs (space_notMem_dec _) (int_dec _), frontBody, if_pos (by simp)]

theorem check_complete {s : Reader κ} (hs : s.Holds) {msgid rest extra : Bytes} {cb : κ}
    (hid : space ∉ msgid)
    (hcb : s.conn.pending.lookup msgid = some cb)
    (hframe : s.unread.dropWhile (· = space) = frame (msgid ++ space :: rest) ++ extra)
    (ticks : List Tick) :
    (Client.check loads s.conn ticks).outcome = some .handled ∧
      (Client.check loads s.conn ticks).invoked = [(cb, response loads rest)] := by
  let body := msgid ++ space :: rest
  obtain ⟨k, hcheck⟩ := check_message loads (front_of_frame hs hframe) ticks
  let conn' : Connection κ :=
    { s.conn with readMsgLen := some (body.length : ℤ), readBuf := body ++ extra }
  have heq : handleMessage loads conn' body.length = _ := handleMessage_body loads hid rfl hcb
  rw [hcheck, heq]
  exact ⟨rfl, rfl⟩

theorem localRead_needed {needed available : Bytes} (hne : needed ≠ [])
    (hpre : needed <+: available)
    (hlen : needed.length ≤ 1024) (later : Bytes) (eof : Bool) :
    ∃ data, localRead 1024 (available ++ later) eof = some data ∧ needed <+: data := by
  have hpre' : needed <+: (available ++ later).take 1024 :=
    List.prefix_take_iff.mpr ⟨hpre.trans (List.prefix_append _ _), hlen⟩
  have hpos : (available ++ later).take 1024 ≠ [] := fun h => hne (List.prefix_nil.mp (h ▸ hpre'))
  refine ⟨_, ?_, hpre'⟩
  have havailable : available ++ later ≠ [] := fun h => hpos (by rw [h]; rfl)
  unfold localRead
  rw [if_pos (.inl havailable)]
  exact if_neg (fun h => hpos (List.length_eq_zero_iff.mp h))

theorem completes_reader {conn : Connection κ} {body needed : Bytes}
    (h : Completes conn body needed) :
    let s : Reader κ := ⟨conn, dec body.length⟩
    s.Holds ∧ ∃ extra, (s.unread ++ needed).dropWhile (· = space) = frame body ++ extra := by
  obtain ⟨pending, nextId, readBuf, readMsgLen, closed⟩ := conn
  rcases readMsgLen with - | n
  · obtain ⟨k, extra, hextra⟩ := h
    refine ⟨nofun, extra, ?_⟩
    have hspaces : ∀ b ∈ List.replicate k space, decide (b = space) = true := fun b hb =>
      decide_eq_true (List.eq_of_mem_replicate hb)
    change (readBuf ++ needed).dropWhile _ = _
    rw [← hextra, List.append_assoc, List.dropWhile_append_of_pos hspaces, frame, List.append_assoc]
    exact dropWhile_space_dec _ _
  · obtain ⟨rfl, extra, hextra⟩ := h
    refine ⟨fun n hn => ?_, extra, ?_⟩
    · obtain rfl := Option.some.inj hn
      exact ⟨int_dec _, space_notMem_dec _⟩
    · change (dec body.length ++ space :: readBuf ++ needed).dropWhile _ = _
      rw [List.append_assoc, List.cons_append, ← hextra, frame]
      simp [dropWhile_space_dec]

theorem tick_before {t now : ℚ} {m : Moment} (h : m.now < Binary64.nearest (now + t)) :
    m.tick (endtime (some t) now) = .read m.data := if_neg (not_le.mpr h)

theorem tick_after {t now : ℚ} {m : Moment} (h : ¬ m.now < Binary64.nearest (now + t)) :
    m.tick (endtime (some t) now) = .expired := if_pos (not_lt.mp h)

/-- A call that has not got a complete response in the buffer, and does not come to a read. -/
theorem check_late {conn : Connection κ} (hcomplete : complete conn = false) {t now : ℚ}
    {moments : List Moment} (hclock : ∀ m ∈ moments.head?, ¬ m.now < Binary64.nearest (now + t)) :
    (check loads (some t) now conn moments).outcome ≠ some .handled ∧
      (check loads (some t) now conn moments).invoked = [] ∧
      complete (check loads (some t) now conn moments).conn = false := by
  obtain ⟨conn', hfront⟩ := (front_eq_more conn).mpr hcomplete
  have hcomplete' : complete conn' = false := (front_eq_more conn').mp ⟨conn', front_again hfront⟩
  unfold check
  rcases moments with - | ⟨m, moments⟩
  · rw [List.map_nil, check_nil loads hfront]
    exact ⟨by simp, rfl, hcomplete'⟩
  · rw [List.map_cons, tick_after (hclock m rfl), check_expired loads hfront]
    exact ⟨by simp, rfl, hcomplete'⟩

/-- The times at which a call with the default timeout reads the clock: doubles that do not go
back. -/
def Polled (call : ℚ × List Moment) : Prop :=
  Binary64.nearest call.1 = call.1 ∧ ∀ m ∈ call.2.head?, call.1 ≤ m.now

theorem Polled.late {call : ℚ × List Moment} (h : Polled call) :
    ∀ m ∈ call.2.head?, ¬ m.now < Binary64.nearest (call.1 + 0) := by
  intro m hm
  rw [add_zero, h.1]
  exact not_lt.mpr (h.2 m hm)

theorem poll_silent (calls : List (ℚ × List Moment)) : ∀ conn : Connection κ,
    complete conn = false → (∀ call ∈ calls, Polled call) →
      ∀ c ∈ poll loads conn calls, c.invoked = [] := by
  induction calls with
  | nil =>
    intro conn _ _ c hc
    cases hc
  | cons call calls ih =>
    intro conn hcomplete hpolled c hc
    obtain ⟨hfirst, hothers⟩ := List.forall_mem_cons.mp hpolled
    obtain ⟨-, hinvoked, hcomplete'⟩ := check_late loads hcomplete hfirst.late
    rcases List.mem_cons.mp hc with rfl | hc
    · exact hinvoked
    · exact ih _ hcomplete' hothers c hc

section

variable {conn : Connection κ} {msgid rest available : Bytes} {cb : κ}

theorem Due.handled_of_complete (h : Due conn msgid rest cb available)
    (hcomplete : complete conn = true)
    (ticks : List Tick) :
    (Client.check loads conn ticks).outcome = some .handled ∧
      (Client.check loads conn ticks).invoked = [(cb, response loads rest)] := by
  obtain ⟨needed, hcompletes, -, -⟩ := h.needed
  obtain ⟨hholds, extra, hframe⟩ := completes_reader hcompletes
  have hmore : ∀ conn', front conn ≠ .more conn' := fun conn' hfront => by
    have := (front_eq_more conn).mp ⟨conn', hfront⟩
    rw [hcomplete] at this
    cases this
  let s : Reader κ := ⟨conn, dec (msgid ++ space :: rest).length⟩
  rw [frame_append] at hframe
  have hsame : ∀ {text' rest'}, s.unread.dropWhile (· = space) = text' ++ space :: rest' →
    space ∉ text' →
      text' = dec (msgid ++ space :: rest).length ∧
          rest' ++ needed = (msgid ++ space :: rest) ++ extra :=
    fun hbs' hspace' =>
      append_cons_inj ((dropWhile_append_text hbs' hspace' needed).symm.trans hframe) hspace'
        (space_notMem_dec _)
  have hint := int_dec (msgid ++ space :: rest).length
  have hfound := found_front hholds
  generalize hfront : front conn = f at hfound hmore
  rcases hfound with hnone | ⟨text', rest', hbs', hspace', hint'⟩ |
    ⟨text', rest', n, hbs', hspace', hint', hlt⟩ |
    ⟨text', rest', n, hbs', hspace', hint', hle⟩
  · exact absurd rfl (hmore _)
  · obtain ⟨rfl, -⟩ := hsame hbs' hspace'
    rw [hint] at hint'
    cases hint'
  · exact absurd rfl (hmore _)
  · -- the body is in the buffer as a whole
    obtain ⟨rfl, hrest⟩ := hsame hbs' hspace'
    obtain rfl := Option.some.inj (hint.symm.trans hint')
    obtain ⟨es, rfl, -⟩ := exists_of_append_eq hrest (by exact_mod_cast hle)
    rw [← frame_append] at hbs'
    exact check_complete loads hholds h.msgid_space h.pending hbs' ticks

theorem Due.handled_of_read (h : Due conn msgid rest cb available)
    (hcomplete : complete conn = false)
    (later : Bytes) (eof : Bool) (ticks : List Tick) :
    (Client.check loads conn (.read (localRead 1024 (available ++ later) eof) :: ticks)).outcome =
      some .handled ∧
      (Client.check loads conn (.read (localRead 1024 (available ++ later) eof) :: ticks)).invoked =
        [(cb, response loads rest)] := by
  obtain ⟨needed, hcompletes, hpre, hlen⟩ := h.needed
  obtain ⟨hholds, extra, hframe⟩ := completes_reader hcompletes
  obtain ⟨conn', hfront⟩ := (front_eq_more conn).mpr hcomplete
  have hne : needed ≠ [] := by
    rintro rfl
    rw [List.append_nil] at hframe
    have hmessage := front_of_frame hholds hframe
    rw [hfront] at hmessage
    cases hmessage
  obtain ⟨data, hdata, extra', rfl⟩ := localRead_needed hne hpre hlen later eof
  obtain ⟨field, hholds', hunread, hpending⟩ := exists_more hholds hfront
  rw [hdata, check_read loads hfront]
  let s : Reader κ := Reader.read ⟨conn', field⟩ (needed ++ extra')
  have hframe' : s.unread.dropWhile (· = space) =
      frame (msgid ++ space :: rest) ++ (extra ++ extra') := by
    rw [frame_append] at hframe ⊢
    have htext := dropWhile_append_text hframe (space_notMem_dec _) extra'
    rw [List.append_assoc, List.append_assoc] at htext
    rw [unread_read, hunread, dropWhile_append_dropWhile]
    exact htext
  have hcb : s.conn.pending.lookup msgid = some cb := hpending ▸ h.pending
  exact check_complete loads (s := s) hholds' h.msgid_space hcb hframe' ticks

/-- A call of `check` handles the response that is due exactly if the clock is still below the
rounded end time when it is looked at, or the response is in the buffer already. A timeout that
leaves more than half the spacing of the doubles is enough; the default timeout never is. -/
theorem check_due_iff (h : Due conn msgid rest cb available) (t now : ℚ) (m : Moment)
    (later : Bytes) (eof : Bool) (hdata : m.data = localRead 1024 (available ++ later) eof)
    (moments : List Moment) :
    ((check loads (some t) now conn (m :: moments)).outcome = some .handled ∧
        (check loads (some t) now conn (m :: moments)).invoked = [(cb, response loads rest)] ↔
      m.now < Binary64.nearest (now + t) ∨ complete conn = true) ∧
    (m.now + Binary64.spacing (now + t) / 2 < now + t →
      (check loads (some t) now conn (m :: moments)).outcome = some .handled) ∧
    ∀ calls : List (ℚ × List Moment), calls ≠ [] → (∀ call ∈ calls, Polled call) →
      ((∃ c ∈ poll loads conn calls, (cb, response loads rest) ∈ c.invoked) ↔
        complete conn = true) := by
  have hwhen : m.now < Binary64.nearest (now + t) ∨ complete conn = true →
      (check loads (some t) now conn (m :: moments)).outcome = some .handled ∧
        (check loads (some t) now conn (m :: moments)).invoked = [(cb, response loads rest)] := by
    intro hwhen
    by_cases hcomplete : complete conn = true
    · exact h.handled_of_complete loads hcomplete _
    · rw [check, List.map_cons, tick_before (hwhen.resolve_right hcomplete), hdata]
      exact h.handled_of_read loads (Bool.eq_false_iff.mpr hcomplete) later eof _
  refine ⟨⟨fun hhandled => ?_, hwhen⟩, fun hmargin => (hwhen (.inl ?_)).1,
    fun calls hne hcalls => ⟨fun hdelivered => ?_, fun hcomplete => ?_⟩⟩
  · by_contra hnot
    obtain ⟨hlate, hcomplete⟩ := not_or.mp hnot
    refine (check_late loads (Bool.eq_false_iff.mpr hcomplete) ?_).1 hhandled.1
    rintro m' ⟨⟩
    exact hlate
  · exact Binary64.lt_nearest hmargin
  · by_contra hnot
    obtain ⟨c, hc, hmem⟩ := hdelivered
    rw [poll_silent loads calls conn (Bool.eq_false_iff.mpr hnot) hcalls c hc] at hmem
    cases hmem
  · obtain ⟨call, calls', rfl⟩ := List.exists_cons_of_ne_nil hne
    refine ⟨_, List.mem_cons_self .., ?_⟩
    rw [check, (h.handled_of_complete loads hcomplete _).2]
    exact List.mem_singleton_self _

end

/-- A client that has sent its first request. -/
def asked : Connection Unit :=
  { Connection.init Unit with pending := AList.insert (text "0") () ∅, nextId := 1 }

theorem due_asked : Due asked (text "0") (text "S0.1") () (text "6 0 S0.1") where
  msgid_space := by decide
  pending := AList.lookup_insert _
  needed := ⟨text "6 0 S0.1", ⟨0, [], by decide⟩, List.prefix_refl _, by decide⟩

theorem check_due_oneSecond :
    (check (fun _ => (none : Option Unit)) (some 1) 0 asked
      [⟨1 / 2, some (text "6 0 S0.1")⟩]).outcome = some .handled := by
  have hiff := check_due_iff (fun _ => (none : Option Unit)) due_asked 1 0
    ⟨1 / 2, some (text "6 0 S0.1")⟩ [] false (by decide) []
  exact (hiff.1.mpr (.inl (by decide +kernel))).1

/-- The default timeout leaves a response in the pipe. -/
theorem check_due_default :
    ¬ ∀ (conn : Connection Unit) (msgid rest available : Bytes) (cb : Unit),
      Due conn msgid rest cb available →
      ∀ (t now : ℚ) (m : Moment) (later : Bytes) (eof : Bool) (moments : List Moment), 0 ≤ t →
        now ≤ m.now ∧ (m.now < now + t ∨ t = 0 ∧ m.now = now) →
          m.data = localRead 1024 (available ++ later) eof →
        (check (fun _ => (none : Option Unit)) (some t) now conn (m :: moments)).outcome =
          some .handled := by
  intro h
  have hhandled := h asked _ _ _ _ due_asked 0 0 ⟨0, some (text "6 0 S0.1")⟩ [] false [] le_rfl
    ⟨le_rfl, .inr ⟨rfl, rfl⟩⟩ (by decide)
  refine (check_late _ (by decide) ?_).1 hhandled
  rintro m ⟨⟩
  decide +kernel

end Xaprun.Client.Timed
