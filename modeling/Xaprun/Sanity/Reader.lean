import Xaprun.Sanity.Check
import Xaprun.Spec.Reader
import Xaprun.Spec.SendWait

/-! What a call of `check` comes to, told by the stream: by the text before its first space, and by
how many bytes there are behind this. -/

namespace Xaprun.Client

open Frames

variable {κ J : Type}

theorem dropWhile_append_dropWhile {α : Type} (p : α → Bool) (as bs : List α) :
    (as.dropWhile p ++ bs).dropWhile p = (as ++ bs).dropWhile p := by
  rw [List.dropWhile_append, List.dropWhile_append, List.dropWhile_idempotent]

theorem dropWhile_space_text {text : Bytes} (hne : text ≠ []) (hspace : space ∉ text) (bs : Bytes) :
    (text ++ bs).dropWhile (· = space) = text ++ bs := by
  obtain ⟨b, text', rfl⟩ := List.exists_cons_of_ne_nil hne
  have hb : b ≠ space := fun he => hspace (by simp [he])
  simp [hb]

theorem space_cases (bs : Bytes) :
    (space ∉ bs ∧ bs.findIdx? (· = space) = none) ∨
    ∃ text rest, space ∉ text ∧ bs = text ++ space :: rest ∧ bs.findIdx? (· = space) =
      some text.length := by
  by_cases h : space ∈ bs
  · obtain ⟨text, rest, rfl, hspace⟩ := List.eq_append_cons_of_mem h
    exact .inr ⟨text, rest, hspace, rfl, findIdx?_space hspace rest⟩
  · exact .inl ⟨h, findIdx?_space_none h⟩

theorem text_ne_nil {bs text rest : Bytes} (h : bs.dropWhile (· = space) = text ++ space :: rest) :
    text ≠ [] := by
  rintro rfl
  have hhead := List.head?_dropWhile_not (· = space) bs
  rw [h] at hhead
  simp at hhead

theorem dropWhile_append_text {bs text rest : Bytes}
    (h : bs.dropWhile (· = space) = text ++ space :: rest)
    (hspace : space ∉ text) (more : Bytes) :
    (bs ++ more).dropWhile (· = space) = text ++ space :: (rest ++ more) := by
  rw [← dropWhile_append_dropWhile, h, List.append_assoc, List.cons_append]
  exact dropWhile_space_text (text_ne_nil h) hspace _

theorem strip_of_isdigit {ds : Bytes} (h : ∀ b ∈ ds, isdigit b = true) : strip ds = ds := by
  have hnot : ∀ b ∈ ds, ¬ isspace b = true := fun b hb => by simp [not_isspace_of_isdigit (h b hb)]
  have hleft : ds.dropWhile isspace = ds := List.dropWhile_eq_self_iff.mpr fun hl =>
    hnot _ (List.getElem_mem _)
  rw [strip, hleft, List.rdropWhile_eq_self_iff]
  exact fun hne => hnot _ (List.getLast_mem hne)

theorem int_of_isdigit {ds : Bytes} (hne : ds ≠ []) (h : ∀ b ∈ ds, isdigit b = true) :
    int ds = some (value ds : ℤ) := by
  have hunsigned : unsigned ds = some (value ds) := by
    rw [unsigned, if_pos ⟨hne, List.all_eq_true.mpr h⟩]
  unfold int
  rw [strip_of_isdigit h]
  obtain ⟨b, ds', hb⟩ := List.exists_cons_of_ne_nil hne
  have hdigit := h b (by simp [hb])
  rw [hb] at hunsigned ⊢
  have hminus : b ≠ byte '-' := by rintro rfl; exact absurd hdigit (by decide)
  have hplus : b ≠ byte '+' := by rintro rfl; exact absurd hdigit (by decide)
  simp [hminus, hplus, hunsigned]

theorem int_nil : int [] = none := rfl

theorem ne_nil_of_int {text : Bytes} {n : ℤ} (h : int text = some n) : text ≠ [] := by
  rintro rfl
  rw [int_nil] at h
  cases h

theorem pass_eq (loads : Bytes → Option J) (conn : Connection κ) :
    pass loads conn =
      match front conn with
      | .more conn => .more conn
      | .invalid conn => failed conn (text "Invalid value read")
      | .message conn n => handleMessage loads conn n := by
  have hbody : ∀ (conn : Connection κ) n, readBody loads conn n =
      match frontBody conn n with
      | .more conn => .more conn
      | .invalid conn => failed conn (text "Invalid value read")
      | .message conn n => handleMessage loads conn n := by
    intro conn n
    unfold readBody frontBody
    split <;> rfl
  unfold pass front
  cases conn.readMsgLen with
  | some n => exact hbody conn n
  | none =>
    dsimp only
    cases (conn.readBuf.dropWhile (· = space)).findIdx? (· = space) with
    | none => rfl
    | some i =>
      dsimp only
      cases int ((conn.readBuf.dropWhile (· = space)).take i) with
      | none => rfl
      | some n => exact hbody _ n

/-! The calls of `check` by what the first pass finds. -/

section

variable (loads : Bytes → Option J) {conn conn' : Connection κ} {ticks : List Tick}

theorem check_invalid (h : front conn = .invalid conn') (ticks : List Tick) :
    check loads conn ticks =
      ⟨(cleanup (J := J) conn').1, (cleanup conn').2, ticks,
        some (.raised (text "Invalid value read"))⟩ := by
  rcases ticks with - | ⟨tick, ticks⟩ <;> rw [check, pass_eq, h] <;> rfl

theorem check_message {n : ℤ} (h : front conn = .message conn' n) (ticks : List Tick) :
    ∃ k, check loads conn ticks = (handleMessage loads conn' n).andThen ticks k := by
  rcases ticks with - | ⟨tick, ticks⟩ <;> rw [check, pass_eq, h] <;> exact ⟨_, rfl⟩

theorem check_nil (h : front conn = .more conn') : check loads conn [] = ⟨conn', [], [], none⟩ := by
  rw [check, pass_eq, h]
  rfl

theorem check_expired (h : front conn = .more conn') (ticks : List Tick) :
    check loads conn (.expired :: ticks) = ⟨conn', [], ticks, some .timedOut⟩ := by
  rw [check, pass_eq, h]
  rfl

theorem check_eof (h : front conn = .more conn') (ticks : List Tick) :
    check loads conn (.read none :: ticks) =
      ⟨(cleanup (J := J) conn').1, (cleanup conn').2, ticks,
        some (.raised (text "Connection closed unexpectedly"))⟩ := by
  rw [check, pass_eq, h]
  rfl

theorem check_read (h : front conn = .more conn') (data : Bytes) (ticks : List Tick) :
    check loads conn (.read (some data) :: ticks) =
      check loads { conn' with readBuf := conn'.readBuf ++ data } ticks := by
  rw [check, pass_eq, h]
  rfl

theorem handed_read (h : front conn = .more conn') (data : Bytes) (ticks : List Tick) :
    handed conn (.read (some data) :: ticks) = handed { conn' with
      readBuf := conn'.readBuf ++ data } ticks := by
  rw [handed, h]

theorem handleMessage_body {msgid rest extra : Bytes} {cb : κ} (hid : space ∉ msgid)
    (hbuf : conn.readBuf = (msgid ++ space :: rest) ++ extra)
    (hcb : conn.pending.lookup msgid = some cb) :
    handleMessage loads conn (msgid ++ space :: rest).length =
      .handled { conn with
        pending := conn.pending.erase msgid, readBuf := extra, readMsgLen := none } cb
        (response loads rest) := by
  have hto : sliceTo conn.readBuf (msgid ++ space :: rest).length = msgid ++ space :: rest := by
    rw [sliceTo, bound, if_pos (Int.natCast_nonneg _), Int.toNat_natCast, hbuf, List.take_left]
  have hfrom : sliceFrom conn.readBuf (msgid ++ space :: rest).length = extra := by
    rw [sliceFrom, bound, if_pos (Int.natCast_nonneg _), Int.toNat_natCast, hbuf, List.drop_left]
  have hidx : (msgid ++ space :: rest).findIdx? (· = space) = some msgid.length :=
    findIdx?_space hid rest
  have htake : (msgid ++ space :: rest).take msgid.length = msgid := by simp
  have hdrop : (msgid ++ space :: rest).drop (msgid.length + 1) = rest := by simp
  simp only [handleMessage, hto, hfrom, hidx, htake, hdrop]
  rw [hto, htake, hcb]

/-- A message that has been taken leaves no length behind, unless it makes the connection fail. -/
theorem readMsgLen_handleMessage (conn : Connection κ) (n : ℤ) (ticks : List Tick)
    (k : Connection κ → Checked κ J) :
    ((handleMessage loads conn n).andThen ticks k).conn.readMsgLen = none ∨
      ((handleMessage loads conn n).andThen ticks k).conn.readMsgLen = conn.readMsgLen := by
  unfold handleMessage
  dsimp only
  split
  · exact .inr rfl
  · split
    · exact .inr rfl
    · exact .inl rfl

theorem pass_of_text {text rest : Bytes} {n : ℤ} (hlen : conn.readMsgLen = none)
    (hbuf : conn.readBuf = text ++ space :: rest) (hspace : space ∉ text)
    (hint : int text = some n) :
    pass loads conn = readBody loads { conn with readMsgLen := some n, readBuf := rest } n := by
  have hdrop : conn.readBuf.dropWhile (· = space) = text ++ space :: rest := by
    rw [hbuf]
    exact dropWhile_space_text (ne_nil_of_int hint) hspace _
  have hidx := findIdx?_space hspace rest
  have htake : (text ++ space :: rest).take text.length = text := by simp
  have hskip : (text ++ space :: rest).drop (text.length + 1) = rest := by simp
  simp only [pass, hlen, hdrop, hidx, htake, hint, hskip]

end

/-! The passes that need more data. -/

theorem frontBody_eq_more (conn : Connection κ) (n : ℤ) :
    (∃ conn', frontBody conn n = .more conn') ↔ ¬ n ≤ conn.readBuf.length := by
  unfold frontBody
  split_ifs with hle
  · refine iff_of_false ?_ (not_not_intro hle)
    rintro ⟨conn', h⟩
    cases h
  · exact iff_of_true ⟨conn, rfl⟩ hle

theorem front_eq_more (conn : Connection κ) :
    (∃ conn', front conn = .more conn') ↔ SendWait.complete conn = false := by
  unfold front SendWait.complete
  cases conn.readMsgLen with
  | some n => simpa using frontBody_eq_more conn n
  | none =>
    dsimp only
    cases (conn.readBuf.dropWhile (· = space)).findIdx? (· = space) with
    | none => simp
    | some i =>
      dsimp only
      cases int ((conn.readBuf.dropWhile (· = space)).take i) with
      | none => simp
      | some n =>
        have hbody := frontBody_eq_more
          { conn with
            readMsgLen := some n
            readBuf := (conn.readBuf.dropWhile (· = space)).drop (i + 1) } n
        simpa using hbody

theorem pass_eq_more_iff {loads : Bytes → Option J} {conn conn' : Connection κ} :
    pass loads conn = .more conn' ↔ front conn = .more conn' := by
  rw [pass_eq]
  cases front conn with
  | more conn'' => simp
  | invalid conn'' => simp [failed]
  | message conn'' n =>
    refine iff_of_false (fun h => ?_) (by simp)
    unfold handleMessage at h
    dsimp only at h
    split at h
    · cases h
    · split at h <;> cases h

theorem front_again {conn conn' : Connection κ} (h : front conn = .more conn') :
    front conn' = .more conn' := by
  have hbody : ∀ {conn : Connection κ} {n}, conn.readMsgLen = some n →
    frontBody conn n = .more conn' →
      front conn' = .more conn' := by
    intro conn n hlen hmore
    obtain rfl : conn = conn' := by
      unfold frontBody at hmore
      split_ifs at hmore
      exact Front.more.inj hmore
    rw [front, hlen]
    exact hmore
  unfold front at h
  cases hlen : conn.readMsgLen with
  | some n =>
    rw [hlen] at h
    exact hbody hlen h
  | none =>
    rw [hlen] at h
    dsimp only at h
    cases hidx : (conn.readBuf.dropWhile (· = space)).findIdx? (· = space) with
    | none =>
      rw [hidx] at h
      obtain rfl := Front.more.inj h
      simp only [front, List.dropWhile_idempotent, hidx]
    | some i =>
      rw [hidx] at h
      dsimp only at h
      cases hint : int ((conn.readBuf.dropWhile (· = space)).take i) with
      | none =>
        rw [hint] at h
        cases h
      | some n =>
        rw [hint] at h
        exact hbody rfl h

namespace Reader

/-- The text is the one of the length that has been read. -/
def Holds (s : Reader κ) :
    Prop := ∀ n, s.conn.readMsgLen = some n → int s.field = some n ∧ space ∉ s.field

/-- What `front` finds, where `bs` is all that has come, after the spaces. -/
inductive Found (conn : Connection κ) (bs : Bytes) : Front κ → Prop
  | unended (h : space ∉ bs) : Found conn bs (.more { conn with readMsgLen := none, readBuf := bs })
  | invalid (text rest : Bytes) (hbs : bs = text ++ space :: rest) (h : space ∉ text)
      (hint : int text = none) :
      Found conn bs (.invalid { conn with readMsgLen := none, readBuf := bs })
  | short (text rest : Bytes) (n : ℤ) (hbs : bs = text ++ space :: rest) (h : space ∉ text)
      (hint : int text = some n) (hlt : ¬ n ≤ rest.length) :
      Found conn bs (.more { conn with readMsgLen := some n, readBuf := rest })
  | message (text rest : Bytes) (n : ℤ) (hbs : bs = text ++ space :: rest) (h : space ∉ text)
      (hint : int text = some n) (hle : n ≤ rest.length) :
      Found conn bs (.message { conn with readMsgLen := some n, readBuf := rest } n)

theorem found_frontBody {conn : Connection κ} {bs text rest : Bytes} {n : ℤ}
    (hbs : bs = text ++ space :: rest)
    (h : space ∉ text) (hint : int text = some n) :
    Found conn bs (frontBody { conn with readMsgLen := some n, readBuf := rest } n) := by
  unfold frontBody
  split_ifs with hle
  · exact .message text rest n hbs h hint hle
  · exact .short text rest n hbs h hint hle

theorem found_front {s : Reader κ} (hs : s.Holds) :
    Found s.conn (s.unread.dropWhile (· = space)) (front s.conn) := by
  obtain ⟨⟨pending, nextId, readBuf, readMsgLen, closed⟩, field⟩ := s
  unfold front
  cases readMsgLen with
  | some n =>
    obtain ⟨hint, hspace⟩ := hs n rfl
    exact found_frontBody (dropWhile_space_text (ne_nil_of_int hint) hspace _) hspace hint
  | none =>
    dsimp only [unread]
    rcases space_cases (readBuf.dropWhile (· = space)) with ⟨hnone, hidx⟩ |
      ⟨text, rest, hspace, hbs, hidx⟩
    · rw [hidx]
      exact .unended hnone
    · rw [hidx]
      have htake : (readBuf.dropWhile (· = space)).take text.length = text := by simp [hbs]
      have hdrop : (readBuf.dropWhile (· = space)).drop (text.length + 1) = rest := by simp [hbs]
      dsimp only
      rw [htake, hdrop]
      cases hint : int text with
      | none => exact .invalid text rest hbs hspace hint
      | some n => exact found_frontBody hbs hspace hint

theorem front_of_text {s : Reader κ} (hs : s.Holds) {text rest : Bytes} {n : ℤ}
    (hbs : s.unread.dropWhile (· = space) = text ++ space :: rest) (hspace : space ∉ text)
    (hint : int text = some n) :
    front s.conn = frontBody { s.conn with readMsgLen := some n, readBuf := rest } n := by
  have hsame : ∀ {text' rest'}, s.unread.dropWhile (· = space) = text' ++ space :: rest' →
    space ∉ text' →
      text' = text ∧ rest' = rest := fun hbs' hspace' =>
        append_cons_inj (hbs'.symm.trans hbs) hspace' hspace
  have hfound := found_front hs
  unfold frontBody
  generalize front s.conn = f at hfound
  rcases hfound with hnone | ⟨text', rest', hbs', hspace', hint'⟩ |
    ⟨text', rest', n', hbs', hspace', hint', hlt⟩ | ⟨text', rest', n', hbs', hspace', hint', hle⟩
  · exact absurd (by rw [hbs]; simp) hnone
  · obtain ⟨rfl, rfl⟩ := hsame hbs' hspace'
    rw [hint] at hint'
    cases hint'
  · obtain ⟨rfl, rfl⟩ := hsame hbs' hspace'
    obtain rfl := Option.some.inj (hint.symm.trans hint')
    rw [if_neg hlt]
  · obtain ⟨rfl, rfl⟩ := hsame hbs' hspace'
    obtain rfl := Option.some.inj (hint.symm.trans hint')
    rw [if_pos hle]

/-- What a call of `check` comes to, where `bs` is the stream: the string given to
`_handle_message` and the call. -/
inductive Comes (conn : Connection κ) (bs : Bytes) (after : Option Tick) :
    Option Bytes → Checked κ J → Prop
  | unended (c : Checked κ J) (h : space ∉ bs)
      (hlen : c.conn.readMsgLen = none) : Comes conn bs after none c
  | invalid (c : Checked κ J) (text rest msg : Bytes) (hbs : bs = text ++ space :: rest)
      (h : space ∉ text)
      (hint : int text = none) (hlen : c.conn.readMsgLen = none)
        (houtcome : c.outcome = some (.raised msg))
      (hinvoked : c.invoked = (cleanup conn).2) : Comes conn bs after none c
  | short (c : Checked κ J) (text rest : Bytes) (n : ℤ) (hbs : bs = text ++ space :: rest)
      (h : space ∉ text)
      (hint : int text = some n) (hlt : ¬ n ≤ rest.length) (hlen : c.conn.readMsgLen = some n)
      (heof : after = some (.read none) → (∃ msg, c.outcome = some (.raised msg)) ∧
        c.invoked = (cleanup conn).2)
      (hopen : after ≠ some (.read none) → ∀ msg, c.outcome ≠ some (.raised msg)) :
        Comes conn bs after none c
  | message (c : Checked κ J) (text rest buf : Bytes) (n : ℤ) (hbs : bs = text ++ space :: rest)
      (h : space ∉ text)
      (hint : int text = some n) (hbuf : buf <+: rest) (hle : n ≤ buf.length)
      (hlen : c.conn.readMsgLen = none ∨ c.conn.readMsgLen = some n) :
      Comes conn bs after (some (sliceTo buf n)) c

theorem Comes.of_pending {conn conn' : Connection κ} {bs : Bytes} {after : Option Tick}
    {m : Option Bytes}
    {c : Checked κ J} (h : Comes conn' bs after m c) (hp : conn'.pending = conn.pending) :
    Comes conn bs after m c := by
  have hcleanup : (cleanup conn').2 = (cleanup (J := J) conn).2 := by simp only [cleanup, hp]
  rcases h with ⟨c, hopen, hlen⟩ | ⟨c, text, rest, msg, hbs, hspace, hint, hlen, houtcome,
    hinvoked⟩ |
    ⟨c, text, rest, n, hbs, hspace, hint, hlt, hlen, heof, hopen⟩ |
    ⟨c, text, rest, buf, n, hbs, hspace, hint, hbuf, hle, hlen⟩
  · exact .unended c hopen hlen
  · exact .invalid c text rest msg hbs hspace hint hlen houtcome (hinvoked.trans hcleanup)
  · exact .short c text rest n hbs hspace hint hlt hlen
      (fun he => ⟨(heof he).1, (heof he).2.trans hcleanup⟩) hopen
  · exact .message c text rest buf n hbs hspace hint hbuf hle hlen

variable (loads : Bytes → Option J)

/-- The stream, once the text of a length has come with the space behind it. -/
theorem stream_eq {s : Reader κ} {text rest : Bytes}
    (h : s.unread.dropWhile (· = space) = text ++ space :: rest)
    (hspace : space ∉ text) (ticks : List Tick) :
    s.stream ticks = text ++ space :: (rest ++ arriving ticks) :=
  dropWhile_append_text h hspace _

theorem last_more {conn conn' : Connection κ} (h : front conn = .more conn') {ticks : List Tick}
    (hlast : ∀ data ticks', ticks ≠ .read (some data) :: ticks') :
    arriving ticks = [] ∧ handed conn ticks = none ∧ (check loads conn ticks).conn.readMsgLen =
      conn'.readMsgLen ∧
      (afterReads ticks = some (.read none) →
        (∃ msg, (check loads conn ticks).outcome = some (.raised msg)) ∧
          (check loads conn ticks).invoked = (cleanup conn').2) ∧
      (afterReads ticks ≠ some (.read none) → ∀ msg, (check loads conn ticks).outcome ≠ some
        (.raised msg)) := by
  match ticks with
  | [] =>
    rw [check_nil loads h, handed, h]
    exact ⟨rfl, rfl, rfl, nofun, fun _ _ => nofun⟩
  | .expired :: ticks =>
    rw [check_expired loads h, handed, h]
    exact ⟨rfl, rfl, rfl, nofun, fun _ _ => nofun⟩
  | .read none :: ticks =>
    rw [check_eof loads h, handed, h]
    exact ⟨rfl, rfl, rfl, fun _ => ⟨⟨_, rfl⟩, rfl⟩, fun he => absurd rfl he⟩
  | .read (some data) :: ticks => exact absurd rfl (hlast data ticks)

theorem comes_ended {s : Reader κ} (hs : s.Holds) (hmore : ∀ conn', front s.conn ≠ .more conn')
    (ticks : List Tick) :
    Comes s.conn (s.stream ticks) (afterReads ticks) (handed s.conn ticks)
      (check loads s.conn ticks) := by
  have hfound := found_front hs
  generalize hfront : front s.conn = f at hfound hmore
  rcases hfound with hnone | ⟨text, rest, hbs, hspace, hint⟩ |
    ⟨text, rest, n, hbs, hspace, hint, hlt⟩ |
    ⟨text, rest, n, hbs, hspace, hint, hle⟩
  · exact absurd rfl (hmore _)
  · have hhanded : handed s.conn ticks = none := by rw [handed, hfront]
    rw [hhanded, stream_eq hbs hspace, check_invalid loads hfront]
    exact .invalid _ text _ _ rfl hspace hint rfl rfl rfl
  · exact absurd rfl (hmore _)
  · have hhanded : handed s.conn ticks = some (sliceTo rest n) := by rw [handed, hfront]
    obtain ⟨k, hcheck⟩ := check_message loads hfront ticks
    rw [hhanded, stream_eq hbs hspace, hcheck]
    exact .message _ text _ rest n rfl hspace hint (List.prefix_append _ _) hle
      (readMsgLen_handleMessage loads _ n ticks k)

theorem comes_starved {s : Reader κ} (hs : s.Holds) {conn' : Connection κ}
    (hfront : front s.conn = .more conn')
    {ticks : List Tick} (hlast : ∀ data ticks', ticks ≠ .read (some data) :: ticks') :
    Comes s.conn (s.stream ticks) (afterReads ticks) (handed s.conn ticks)
      (check loads s.conn ticks) := by
  have hfound := found_front hs
  obtain ⟨harriving, hhanded, hlen, heof, hopen⟩ := last_more loads hfront hlast
  rw [hfront] at hfound
  rw [hhanded, stream, harriving, List.append_nil]
  rcases hfound with hnone | - | ⟨text, rest, n, hbs, hspace, hint, hlt⟩ | -
  · exact .unended _ hnone hlen
  · exact .short _ text rest n hbs hspace hint hlt hlen heof hopen

/-- A reader that needs more data, after the pass. -/
theorem exists_more {s : Reader κ} (hs : s.Holds) {conn' : Connection κ}
    (hfront : front s.conn = .more conn') :
    ∃ field, Holds ⟨conn', field⟩ ∧ unread ⟨conn', field⟩ = s.unread.dropWhile (· = space) ∧
      conn'.pending = s.conn.pending := by
  have hfound := found_front hs
  rw [hfront] at hfound
  rcases hfound with hnone | - | ⟨text, rest, n, hbs, hspace, hint, hlt⟩ | -
  · exact ⟨[], nofun, rfl, rfl⟩
  · refine ⟨text, fun n' hn' => ?_, hbs.symm, rfl⟩
    obtain rfl := Option.some.inj hn'
    exact ⟨hint, hspace⟩

def read (s : Reader κ) (data : Bytes) : Reader κ :=
  { s with conn := { s.conn with readBuf := s.conn.readBuf ++ data } }

theorem unread_read (s : Reader κ) (data : Bytes) : (s.read data).unread = s.unread ++ data := by
  obtain ⟨⟨pending, nextId, readBuf, readMsgLen, closed⟩, field⟩ := s
  rcases readMsgLen with - | n
  · rfl
  · exact (List.append_assoc field (space :: readBuf) data).symm

theorem comes_check (ticks : List Tick) : ∀ s : Reader κ, s.Holds →
    Comes s.conn (s.stream ticks) (afterReads ticks) (handed s.conn ticks)
      (check loads s.conn ticks) := by
  induction ticks with
  | nil =>
    intro s hs
    by_cases hmore : ∃ conn', front s.conn = .more conn'
    · obtain ⟨conn', hfront⟩ := hmore
      exact comes_starved loads hs hfront (by simp)
    · exact comes_ended loads hs (not_exists.mp hmore) _
  | cons tick ticks ih =>
    intro s hs
    by_cases hmore : ∃ conn', front s.conn = .more conn'
    · obtain ⟨conn', hfront⟩ := hmore
      rcases tick with - | (- | data)
      · exact comes_starved loads hs hfront (by simp)
      · exact comes_starved loads hs hfront (by simp)
      · obtain ⟨field, hholds, hunread, hpending⟩ := exists_more hs hfront
        have hstream : (Reader.read ⟨conn', field⟩ data).stream ticks =
            s.stream (.read (some data) :: ticks) := by
          rw [stream, unread_read, hunread, List.append_assoc, dropWhile_append_dropWhile]
          rfl
        rw [handed_read hfront, check_read loads hfront, ← hstream]
        exact (ih (Reader.read ⟨conn', field⟩ data) hholds).of_pending hpending
    · exact comes_ended loads hs (not_exists.mp hmore) _

end Reader

end Xaprun.Client
