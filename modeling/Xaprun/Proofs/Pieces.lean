import Xaprun.Sanity.Pieces

/-! Arbitrary buffers. A call of `dispatch_request` takes the buffer apart into white space,
frames and garbage, without leaving the buffer or the range of `int`, and makes one call for each
frame and each run of garbage. A complete request stays behind only when the call routes nothing
and the length field of the request ends beyond byte nine. -/

namespace Xaprun

open Frames

/-! The checks never fail. -/

namespace Guarded

theorem char_ok {buf : Bytes} {pos : ℕ} (h : pos < buf.length) : char buf pos = .ok buf[pos] := by
  rw [char, List.getElem?_eq_getElem h]

theorem skipSpace_ok (buf : Bytes) (fuel : ℕ) :
    ∀ pos, buf.length - pos < fuel → skipSpace buf fuel pos = .ok (Xaprun.skipSpace buf pos) := by
  induction fuel with
  | zero =>
    intro pos h
    omega
  | succ fuel ih =>
    intro pos h
    unfold skipSpace Xaprun.skipSpace
    split_ifs with hlt
    · rw [char_ok hlt, List.drop_eq_getElem_cons hlt]
      change (if isspace buf[pos] = true then skipSpace buf fuel (pos + 1) else .ok pos) = _
      cases hb : isspace buf[pos] with
      | true =>
        rw [if_pos rfl, ih (pos + 1) (by omega), Xaprun.skipSpace, List.takeWhile_cons_of_pos hb,
          List.length_cons]
        congr 1
        omega
      | false =>
        rw [if_neg (by simp), List.takeWhile_cons_of_neg (by simp [hb])]
        rfl
    · rw [List.drop_eq_nil_of_le (by omega)]
      rfl

/-- The value of up to nine digits fits in an `int`. -/
theorem int_ok {n : ℕ} (h : n < 1000000000) : int n = .ok (n : ℤ) := by
  apply if_pos
  constructor <;> omega

theorem int_digit {n d pos : ℕ} (hn : n < 10 ^ pos) (hpos : pos < 9) (hd : d ≤ 9) :
    n * 10 + d < 10 ^ (pos + 1) ∧ int ((n : ℤ) * 10) = .ok ((n * 10 : ℕ) : ℤ) ∧
      int (((n * 10 : ℕ) : ℤ) + d) = .ok ((n * 10 + d : ℕ) : ℤ) := by
  have hnext : n * 10 + d < 10 ^ (pos + 1) := by
    rw [pow_succ]
    omega
  have hmax : 10 ^ (pos + 1) ≤ 1000000000 := by
    interval_cases pos <;> norm_num
  refine ⟨hnext, ?_, ?_⟩
  · rw [← int_ok (by omega : n * 10 < 1000000000)]
    push_cast
    rfl
  · rw [← int_ok (by omega : n * 10 + d < 1000000000)]
    push_cast
    rfl

/-- The scan of the length field. A number of `pos` digits is below `10 ^ pos`, and the scan ends
by byte nine. -/
theorem readLength_ok {buf : Bytes} {m : ℕ} (hm : m ≤ buf.length) (hnine : m ≤ 9) (fuel : ℕ) :
    ∀ pos n, m - pos < fuel → n < 10 ^ pos →
      let digits := ((buf.drop pos).take (m - pos)).takeWhile isdigit
      readLength buf m fuel pos (n : ℕ) =
        .ok (pos + digits.length, (digits.foldl (fun n b => n * 10 + digitVal b) n : ℕ)) := by
  induction fuel with
  | zero =>
    intro pos n h
    omega
  | succ fuel ih =>
    intro pos n h hn digits
    unfold readLength
    split_ifs with hlt
    · have hpos : pos < buf.length := by omega
      have htake : (buf.drop pos).take (m - pos) =
          buf[pos] :: (buf.drop (pos + 1)).take (m - (pos + 1)) := by
        rw [List.drop_eq_getElem_cons hpos, show m - pos = m - (pos + 1) + 1 by omega,
          List.take_succ_cons]
      rw [char_ok hpos]
      cases hb : isdigit buf[pos] with
      | true =>
        have hval : digitVal buf[pos] ≤ 9 := by
          simp only [isdigit, Bool.and_eq_true, decide_eq_true_eq] at hb
          unfold digitVal
          omega
        obtain ⟨hnext, htens, hsum⟩ := int_digit hn (by omega) hval
        have hrec := ih (pos + 1) _ (by omega) hnext
        have hdigits : digits = buf[pos] ::
            ((buf.drop (pos + 1)).take (m - (pos + 1))).takeWhile isdigit := by
          rw [← List.takeWhile_cons_of_pos hb, ← htake]
        simp only [bind, Except.bind, if_true, hb, htens, hsum, hrec, hdigits, List.length_cons,
          List.foldl_cons]
        rw [Nat.add_assoc, Nat.add_comm 1]
      | false =>
        have hdigits : digits = [] := by
          change ((buf.drop pos).take (m - pos)).takeWhile isdigit = []
          rw [htake, List.takeWhile_cons_of_neg (by simp [hb])]
        rw [hdigits]
        change (if isdigit buf[pos] = true then _ else _) = _
        rw [hb, if_neg (by simp)]
        rfl
    · have hdigits : digits = [] := by
        change ((buf.drop pos).take (m - pos)).takeWhile isdigit = []
        rw [show m - pos = 0 by omega, List.take_zero]
        rfl
      rw [hdigits]
      rfl

/-- A line end is not where a round starts to look for one. -/
theorem skipSpace_of_iscrlf {buf : Bytes} {pos : ℕ} (hlt : pos < buf.length)
    (h : iscrlf buf[pos] = true) :
    pos < Xaprun.skipSpace buf pos := by
  rw [Xaprun.skipSpace, List.drop_eq_getElem_cons hlt,
    List.takeWhile_cons_of_pos (isspace_of_iscrlf h), List.length_cons]
  omega

theorem dispatchLoop_ok (c : ℤ) (buf : Bytes) (fuel : ℕ) : ∀ pos found, buf.length - pos < fuel →
    dispatchLoop c buf fuel pos found = .ok (Xaprun.dispatchLoop c buf fuel pos found) := by
  induction fuel with
  | zero =>
    intro pos found h
    omega
  | succ fuel ih =>
    intro pos found h
    have hstart : pos ≤ Xaprun.skipSpace buf pos := Nat.le_add_right _ _
    have hmax : (if buf.length < MAX_MSG_LEN_LEN then buf.length else MAX_MSG_LEN_LEN) ≤
      buf.length ∧
        (if buf.length < MAX_MSG_LEN_LEN then buf.length else MAX_MSG_LEN_LEN) ≤ 9 := by
      unfold MAX_MSG_LEN_LEN
      split_ifs <;> omega
    have hread : readLength buf (if buf.length <
      MAX_MSG_LEN_LEN then buf.length else MAX_MSG_LEN_LEN) (buf.length + 1)
        (Xaprun.skipSpace buf pos) 0 = .ok
          (Xaprun.skipSpace buf pos + (lengthDigits buf (Xaprun.skipSpace buf pos)).length,
          (value (lengthDigits buf (Xaprun.skipSpace buf pos)) : ℕ)) :=
      readLength_ok hmax.1 hmax.2 _ (Xaprun.skipSpace buf pos) 0 (by omega) (by positivity)
    unfold dispatchLoop Xaprun.dispatchLoop
    simp only [bind, Except.bind, skipSpace_ok buf (buf.length + 1) pos (by omega), hread]
    generalize hdigits : lengthDigits buf (Xaprun.skipSpace buf pos) = digits
    by_cases hend : buf.length ≤ Xaprun.skipSpace buf pos + digits.length
    · rw [if_pos hend, List.getElem?_eq_none hend]
    · have hlt : Xaprun.skipSpace buf pos + digits.length < buf.length := by omega
      rw [if_neg hend, char_ok hlt, List.getElem?_eq_getElem hlt]
      dsimp only
      by_cases hspace : buf[Xaprun.skipSpace buf pos + digits.length] ≠ space
      · rw [if_pos hspace, if_pos hspace]
        cases hfind : findFrom iscrlf buf (Xaprun.skipSpace buf pos + digits.length) with
        | none => rfl
        | some j =>
          obtain ⟨i, hi, rfl⟩ := Option.map_eq_some_iff.mp hfind
          have hprogress : pos < Xaprun.skipSpace buf pos + digits.length + i := by
            obtain ⟨hlen, hcr, -⟩ := List.findIdx?_eq_some_iff_getElem.mp hi
            rw [List.getElem_drop] at hcr
            by_contra hstay
            have hzero : Xaprun.skipSpace buf pos + digits.length + i = pos := by omega
            have hpos : pos < buf.length := by omega
            have hfirst : iscrlf buf[pos] = true := by simpa only [hzero] using hcr
            have := skipSpace_of_iscrlf hpos hfirst
            omega
          dsimp only
          rw [ih _ _ (by omega)]
      · rw [if_neg hspace, if_neg hspace]
        by_cases hshort : buf.length < Xaprun.skipSpace buf pos + digits.length + 1 + value digits
        · rw [if_pos (by omega), if_pos hshort]
        · rw [if_neg (by omega), if_neg hshort, Int.toNat_natCast, ih _ _ (by omega)]

theorem dispatchRequest_ok (c : ℤ) (buf : Bytes) :
    dispatchRequest c buf = .ok (Xaprun.dispatchRequest c buf) := by
  rw [dispatchRequest, dispatchLoop_ok c buf _ _ _ (by omega)]
  rfl

end Guarded

/-! Conservation. -/

/-- What `route_message` gets for a piece, or that there was an error. -/
def Piece.routed (connectionNum : ℤ) : Piece → Option (Option (ℤ × Bytes))
  | .blank _ => none
  | .frame _ body => some (some (connectionNum, body))
  | .garbage _ => some none

theorem callsOf_routed (c : ℤ) (ps : List Piece) (pre after : Bytes) :
    (callsOf c (pre ++ (bytesOf ps ++ after)) pre.length ps).map Call.routed = ps.filterMap
    (Piece.routed c) := by
  induction ps generalizing pre with
  | nil => rfl
  | cons p ps ih =>
    have hrest := ih (pre ++ p.bytes)
    rw [List.append_assoc, List.length_append, ← List.append_assoc p.bytes, ← bytesOf_cons] at hrest
    rw [callsOf, List.map_append, hrest]
    cases p with
    | blank ws => rfl
    | garbage run => rfl
    | frame digits body =>
      have hbody : substr (pre ++ (bytesOf (.frame digits body :: ps) ++ after))
        (pre.length + digits.length + 1)
          body.length = body := by
        have hbuf : pre ++ (bytesOf (.frame digits body :: ps) ++ after) =
            (pre ++ digits ++ [space]) ++ (body ++ (bytesOf ps ++ after)) := by
          rw [bytesOf_cons]
          simp [Piece.bytes]
        have hpos : pre.length + digits.length + 1 = (pre ++ digits ++ [space]).length := by
          simp only [List.length_append, List.length_singleton]
        rw [substr, hbuf, hpos, List.drop_left, List.take_left]
      simp only [Piece.call, Option.toList_some, List.map_cons, List.map_nil, Call.routed, hbody]
      rfl

theorem bytesOf_pos {ps : List Piece} (h : ps.any Piece.isFrame = true) :
    0 < (bytesOf ps).length := by
  induction ps with
  | nil => simp at h
  | cons p ps ih =>
    rw [bytesOf_cons, List.length_append]
    cases p with
    | frame digits body =>
      simp only [Piece.bytes, List.length_append, List.length_cons]
      omega
    | blank | garbage =>
      have := ih (by simpa [Piece.isFrame] using h)
      omega

theorem dispatchRequest_shorter {c : ℤ} {buf : Bytes} (h : (dispatchRequest c buf).2.2 = true) :
    (dispatchRequest c buf).2.1.length < buf.length := by
  obtain ⟨ps, after, htaken, hreq⟩ := dispatchRequest_taken c buf
  rw [hreq] at h ⊢
  have hpos := bytesOf_pos h
  have hlen := congrArg List.length htaken.whole
  rw [List.length_append] at hlen
  dsimp only
  omega

theorem dispatchesAll_dispatchAll (c : ℤ) (fuel : ℕ) : ∀ buf : Bytes, buf.length < fuel →
    DispatchesAll c buf (dispatchAll c fuel buf).1 (dispatchAll c fuel buf).2 := by
  induction fuel with
  | zero =>
    intro buf h
    omega
  | succ fuel ih =>
    intro buf hfuel
    unfold dispatchAll
    dsimp only
    split_ifs with hfound
    · have hshort := dispatchRequest_shorter hfound
      exact .again (by rw [← hfound]) (ih _ (by omega))
    · exact .stop (by rw [← Bool.eq_false_of_not_eq_true hfound])

/-- A call of `dispatch_request` on any buffer passes its checks. It takes off white space, frames
and garbage, makes the calls for these and no others, and reports whether there was a frame. After
a frame the buffer is shorter, so that calling again until there is none comes to an end. -/
theorem dispatch_conserves (c : ℤ) (buf : Bytes) :
    ∃ calls after found, Guarded.dispatchRequest c buf = .ok (calls, after, found) ∧
      dispatchRequest c buf = (calls, after, found) ∧
      (∃ ps, buf = bytesOf ps ++ after ∧ AllFit ps after ∧ calls = callsOf c buf 0 ps ∧
        calls.map Call.routed = ps.filterMap (Piece.routed c) ∧
          (found = true ↔ ∃ p ∈ ps, p.isFrame = true)) ∧
      (found = true → after.length < buf.length) ∧ ∃ cs rest, DispatchesAll c buf cs rest := by
  obtain ⟨ps, after, htaken, hreq⟩ := dispatchRequest_taken c buf
  refine ⟨_, _, _, (Guarded.dispatchRequest_ok c buf).trans (congrArg _ hreq), hreq,
    ⟨ps, htaken.whole, htaken.fit, rfl, ?_, List.any_eq_true⟩, ?_,
    _, _, dispatchesAll_dispatchAll c (buf.length + 1) buf (by omega)⟩
  · have hrouted := callsOf_routed c ps [] after
    rwa [List.nil_append, ← htaken.whole] at hrouted
  · intro hfound
    have hshort : (dispatchRequest c buf).2.1.length < buf.length :=
      dispatchRequest_shorter (by rw [hreq]; exact hfound)
    rwa [hreq] at hshort

/-! Requests that are left waiting. -/

theorem dispatchLoop_blank (c : ℤ) {pre r : Bytes} {b : UInt8} (hb : isspace b = true) (fuel : ℕ)
    (found : Bool) :
    dispatchLoop c (pre ++ b :: r) (fuel + 1) pre.length found =
      dispatchLoop c (pre ++ b :: r) (fuel + 1) (pre.length + 1) found := by
  have hskip : skipSpace (pre ++ b :: r) pre.length =
      skipSpace (pre ++ b :: r) (pre.length + 1) := by
    have hnext : (pre ++ b :: r).drop (pre.length + 1) = r := by
      rw [List.drop_append, List.drop_eq_nil_of_le (by omega), Nat.add_sub_cancel_left]
      rfl
    rw [skipSpace, skipSpace, List.drop_left, hnext, List.takeWhile_cons_of_pos hb,
      List.length_cons]
    omega
  rw [dispatchLoop, dispatchLoop, hskip]

theorem line_unique {run run' rest rest' : Bytes} {b b' : UInt8}
    (h : run ++ b :: rest = run' ++ b' :: rest')
    (hb : iscrlf b = true) (hb' : iscrlf b' = true) (hline : ∀ a ∈ run, iscrlf a = false)
    (hline' : ∀ a ∈ run', iscrlf a = false) : run = run' := by
  have hcut : ∀ {run rest : Bytes} {b : UInt8}, iscrlf b = true → (∀ a ∈ run, iscrlf a = false) →
      (run ++ b :: rest).takeWhile (fun a => !iscrlf a) = run := by
    intro run rest b hb hline
    rw [List.takeWhile_append_of_pos (fun a ha => by rw [hline a ha]; rfl),
      List.takeWhile_cons_of_neg (by simp [hb]),
      List.append_nil]
  rw [← hcut hb hline, h, hcut hb' hline']

/-- The loop passes over noise and makes no call of `route_message`. The induction follows the
noise; a blank costs no round. -/
theorem dispatchLoop_noise (c : ℤ) {o : ℕ} {x r : Bytes} (hx : Noise o x) (hr : Solid r)
    (hstops : Stops (o + x.length) r)
    (found : Bool) : ∀ (pre : Bytes) (fuel : ℕ), pre.length = o → (x ++ r).length < fuel →
      ∃ calls, dispatchLoop c (pre ++ (x ++ r)) fuel pre.length found =
        ⟨calls, (pre ++ x).length, found⟩ := by
  induction hx with
  | nil =>
    intro pre fuel hpre hfuel
    obtain ⟨fuel, rfl⟩ : ∃ k, fuel = k + 1 := ⟨fuel - 1, by omega⟩
    rw [List.append_nil]
    exact ⟨[], dispatchLoop_stops c hr (by rw [hpre]; exact hstops) fuel found⟩
  | @blank o b x hb _ ih =>
    intro pre fuel hpre hfuel
    obtain ⟨fuel, rfl⟩ : ∃ k, fuel = k + 1 := ⟨fuel - 1, by omega⟩
    have hlen : o + 1 + x.length = o + (b :: x).length := by
      rw [List.length_cons]
      omega
    obtain ⟨calls, hloop⟩ := ih (hlen ▸ hstops) (pre ++ [b]) (fuel + 1) (by simp [hpre]) (by
      simp only [List.length_append, List.length_cons] at hfuel ⊢
      omega)
    rw [List.append_assoc, List.length_append] at hloop
    refine ⟨calls, ?_⟩
    rw [List.cons_append, dispatchLoop_blank c hb]
    simpa using hloop
  | @garbage o run x b hrun hb _ ih =>
    intro pre fuel hpre hfuel
    obtain ⟨fuel, rfl⟩ : ∃ k, fuel = k + 1 := ⟨fuel - 1, by omega⟩
    have hfront : Solid (run ++ b :: x ++ r) := by
      obtain ⟨a, as, rfl, ha⟩ := hrun.solid
      exact solid_of_head ha
    have hbuf : pre ++ (run ++ b :: x ++ r) = pre ++ ([] ++ (run ++ b :: x ++ r)) := rfl
    have hshape : run ++ b :: x ++ r = run ++ b :: (x ++ r) := by simp
    obtain ⟨hstop, -⟩ | ⟨run', b', rest, heq, hrun', hb', hloop⟩ |
        ⟨digits, body, rest, heq, -, hnine, hdigit, -, -⟩ :=
      dispatchLoop_cases c hbuf (o := o) (by rw [List.append_nil, hpre]) (by simp) hfront fuel found
    · exact (hstop.not_garbage hshape hb hrun le_rfl).elim
    · rw [hshape] at heq
      obtain rfl : run = run' := line_unique heq hb hb' hrun.line hrun'.line
      have hlen : o + run.length + (b :: x).length = o + (run ++ b :: x).length := by
        rw [List.length_append, Nat.add_assoc]
      obtain ⟨calls, hnext⟩ := ih (hlen ▸ hstops) (pre ++ run) fuel
          (by rw [List.length_append, hpre]) (by
        obtain ⟨a, as, rfl, -⟩ := hrun.solid
        simp only [List.length_append, List.length_cons] at hfuel ⊢
        omega)
      rw [List.length_append, hpre, List.append_assoc, ← List.append_assoc run,
        List.append_assoc pre run] at hnext
      exact ⟨_, hloop.trans (by rw [hnext])⟩
    · -- a frame would be one in the line itself
      rw [hshape] at heq
      obtain ⟨more, hmore⟩ := run_of_field heq hb hdigit
      have := hrun.unframed digits more hmore hdigit
      omega

section Waiting

variable {c : ℤ} {o : ℕ} {buf r rest digits : Bytes} {cs : List Call}

theorem CompleteFrame.stops (hc : CompleteFrame digits rest)
    (hlate : MAX_MSG_LEN_LEN < o + digits.length)
    (hline : ∀ b ∈ rest, iscrlf b = false) : Stops o (digits ++ space :: rest) := by
  obtain ⟨d, ds, hdigit, htail⟩ := afterDigits_late rfl hc hlate
  unfold Stops
  rw [htail]
  dsimp only
  rw [if_neg (ne_space_of_isdigit (hdigit d List.mem_cons_self)), List.any_eq_false]
  intro a ha
  rw [Bool.not_eq_true]
  rw [← List.cons_append] at ha
  rcases List.mem_append.mp ha with ha | ha
  · exact not_iscrlf_of_isdigit (hdigit a ha)
  · rcases List.mem_cons.mp ha with rfl | ha
    · rfl
    · exact hline a ha

theorem CompleteFrame.isSolid (hc : CompleteFrame digits rest) :
    Solid (digits ++ space :: rest) := by
  obtain ⟨d, ds, rfl⟩ := List.exists_cons_of_length_pos hc.some_digit
  exact solid_of_head (not_isspace_of_isdigit (hc.digit d List.mem_cons_self))

/-- A late request is left behind by a call that reports no message. -/
theorem dispatchRequest_late (c : ℤ) (h : LateRequest buf) :
    ∃ calls rest, dispatchRequest c buf = (calls, rest, false) ∧ Complete rest := by
  obtain ⟨x, digits, rest, rfl, hnoise, hc, hlate, hline⟩ := h
  have hstops : Stops (0 + x.length) (digits ++ space :: rest) := by
    rw [Nat.zero_add]
    exact hc.stops hlate hline
  obtain ⟨calls, hloop⟩ := dispatchLoop_noise c hnoise hc.isSolid hstops false [] _ rfl
    (Nat.lt_succ_self _)
  refine ⟨calls, digits ++ space :: rest, ?_, [], digits, rest, rfl, by simp, hc⟩
  simp only [List.nil_append, List.length_nil] at hloop
  rw [dispatchRequest, hloop, List.drop_left]

/-- What starts without white space and is complete is a frame. -/
theorem Complete.frame (h : Complete r) (hr : Solid r) :
    ∃ digits rest, r = digits ++ space :: rest ∧ CompleteFrame digits rest := by
  obtain ⟨ws, digits, rest, rfl, hws, hc⟩ := h
  cases ws with
  | nil => exact ⟨digits, rest, rfl, hc⟩
  | cons b ws =>
    have hblank := hws b List.mem_cons_self
    rw [hr.head] at hblank
    cases hblank

theorem taken_of_dispatchRequest {found : Bool} (h : dispatchRequest c buf = (cs, rest, found)) :
    ∃ ps, Taken 0 buf ps rest ∧ ps.any Piece.isFrame = found := by
  obtain ⟨ps, after, htaken, hpieces⟩ := dispatchRequest_taken c buf
  rw [h, Prod.mk.injEq, Prod.mk.injEq] at hpieces
  obtain ⟨-, rfl, rfl⟩ := hpieces
  exact ⟨ps, htaken, rfl⟩

/-- After a call that has found a message the later calls leave nothing complete behind. The
induction is on the calls; each starts where the one before it has stopped. -/
theorem DispatchesAll.settled (h : DispatchesAll c r cs rest) (hr : Solid r) (hstops : Stops o r) :
    Solid rest ∧ Stops 0 rest := by
  induction h generalizing o with
  | @stop r rest cs hreq =>
    obtain ⟨ps, htaken, hnone⟩ := taken_of_dispatchRequest hreq
    obtain rfl := htaken.of_stops hr hstops hnone
    have hnil : bytesOf ps = [] := List.append_left_eq_self.mp htaken.whole.symm
    have hfront := htaken.stops
    rw [hnil] at hfront
    exact ⟨hr, hfront⟩
  | @again r rest rest' cs cs' hreq _ ih =>
    obtain ⟨ps, htaken, -⟩ := taken_of_dispatchRequest hreq
    exact ih htaken.solid htaken.stops

/-- Without a late request the loop stops for good. -/
theorem DispatchesAll.stops_of_not_late (h : DispatchesAll c buf cs rest)
    (hlate : ¬ LateRequest buf) :
    Solid rest ∧ Stops 0 rest := by
  cases h with
  | stop hreq =>
    obtain ⟨ps, htaken, hnone⟩ := taken_of_dispatchRequest hreq
    refine ⟨htaken.solid, htaken.stops.zero htaken.solid fun hcomplete => hlate ?_⟩
    obtain ⟨digits, more, rfl, hc⟩ := hcomplete.frame htaken.solid
    obtain ⟨hfar, hline⟩ := htaken.stops.late rfl hc
    rw [Nat.zero_add] at hfar
    exact ⟨bytesOf ps, digits, more, htaken.whole, htaken.noise hnone, hc, hfar, hline⟩
  | again hreq hrest =>
    obtain ⟨ps, htaken, -⟩ := taken_of_dispatchRequest hreq
    exact hrest.settled htaken.solid htaken.stops

/-- At the front of the buffer every length field of up to nine digits is read. -/
theorem Stops.not_complete (h : Stops 0 r) (hr : Solid r) : ¬ Complete r := by
  intro hcomplete
  obtain ⟨digits, rest, rfl, hc⟩ := hcomplete.frame hr
  have hfar := (h.late rfl hc).1
  have hnine := hc.nine_digits
  unfold MAX_MSG_LEN_LEN at hfar
  omega

end Waiting

/-- The loop over `dispatch_request` leaves a complete request waiting exactly if the buffer has a
late request behind noise: the limit for the length field is an offset in the buffer, and a call
that only passes over noise reports no message, so that the loop does not call again. -/
theorem nothing_waits_iff (c : ℤ) (buf : Bytes) : NothingWaits c buf ↔ ¬ LateRequest buf := by
  constructor
  · intro h hlate
    obtain ⟨calls, rest, hreq, hcomplete⟩ := dispatchRequest_late c hlate
    exact h.front calls rest (.stop hreq) hcomplete
  · intro hlate
    constructor
    · intro cs rest hall
      obtain ⟨hsolid, hstops⟩ := hall.stops_of_not_late hlate
      exact hstops.not_complete hsolid
    · intro cs rest hall call hcall
      obtain ⟨hsolid, hstops⟩ := hall.stops_of_not_late hlate
      rw [dispatchRequest_stops c hsolid hstops] at hcall
      simp at hcall

/-- Nine blanks in front of an empty request: it waits, and a second call routes it. -/
theorem waits_behind_blanks : ¬ NothingWaits 1 (text "         0 ") ∧
    dispatchRequest 1 (text "         0 ") = ([], text "0 ", false) ∧
    dispatchRequest 1 (text "0 ") = ([.routeMessage 1 (text "0 ") 2 0], [], true) := by
  have hfirst : dispatchRequest 1 (text "         0 ") = ([], text "0 ", false) := by decide
  have hsecond : dispatchRequest 1 (text "0 ") = ([.routeMessage 1 (text "0 ") 2 0], [], true) := by
    decide
  refine ⟨fun h => ?_, hfirst, hsecond⟩
  have hnone := h.again _ _ (.stop hfirst) (.routeMessage 1 (text "0 ") 2 0) (by rw [hsecond]; simp)
  cases hnone

end Xaprun
