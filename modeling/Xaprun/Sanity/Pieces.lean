import Xaprun.Sanity.Rounds
import Xaprun.Spec.Pieces

/-! One round of the framing loop on an arbitrary buffer: it stops, skips garbage, or routes a
frame. From this the pieces of what a call consumes. -/

namespace Xaprun

open Frames

section Digits

variable {o : ℕ} {r : Bytes}

/-- The digits that the loop reads at offset `o` of the buffer. -/
def cappedDigits (o : ℕ) (r : Bytes) : Bytes := (r.takeWhile isdigit).take (MAX_MSG_LEN_LEN - o)

theorem cappedDigits_eq (o : ℕ) (r : Bytes) :
    (r.take (min (o + r.length) MAX_MSG_LEN_LEN - o)).takeWhile isdigit = cappedDigits o r := by
  have hmin : r.take (min (o + r.length) MAX_MSG_LEN_LEN - o) = r.take (MAX_MSG_LEN_LEN - o) := by
    by_cases hle : o + r.length ≤ MAX_MSG_LEN_LEN
    · rw [List.take_of_length_le (by omega), List.take_of_length_le (by omega)]
    · rw [Nat.min_eq_right (by omega)]
  rw [hmin, ← List.take_takeWhile, cappedDigits]

theorem cappedDigits_isdigit : ∀ b ∈ cappedDigits o r, isdigit b = true := by
  intro b hb
  exact List.mem_takeWhile_imp (List.mem_of_mem_take hb)

theorem cappedDigits_length :
    (cappedDigits o r).length ≤ MAX_MSG_LEN_LEN - o := List.length_take_le _ _

theorem cappedDigits_prefix : cappedDigits o r <+: r :=
  (List.take_prefix _ _).trans (List.takeWhile_prefix _)

theorem cappedDigits_all {digits rest : Bytes} {b : UInt8} (hr : r = digits ++ b :: rest)
    (hdigit : ∀ d ∈ digits, isdigit d = true) (hb : isdigit b = false)
    (hfits : o + digits.length ≤ MAX_MSG_LEN_LEN) :
    cappedDigits o r = digits := by
  rw [cappedDigits, hr, takeWhile_digits hdigit hb, List.take_of_length_le (by omega)]

end Digits

def afterDigits (o : ℕ) (r : Bytes) : Bytes := r.drop (cappedDigits o r).length

theorem split_digits (o : ℕ) (r : Bytes) : r = cappedDigits o r ++ afterDigits o r :=
  (List.prefix_iff_eq_append.mp cappedDigits_prefix).symm

theorem getElem?_afterDigits (o : ℕ) (r : Bytes) :
    r[(cappedDigits o r).length]? = (afterDigits o r).head? :=
  List.head?_drop.symm

/-- The loop stops at offset `o` of the buffer in front of `r`: digits to the end, a frame that is
not all there, or no space after the digits and no line end to come. -/
def Stops (o : ℕ) (r : Bytes) : Prop :=
  match afterDigits o r with
  | [] => True
  | b :: rest =>
    if b = space then rest.length < value (cappedDigits o r) else (b :: rest).any iscrlf = false

theorem split_of_findIdx? {α : Type*} {p : α → Bool} {xs : List α} {i : ℕ}
    (h : xs.findIdx? p = some i) :
    ∃ as b bs, xs = as ++ b :: bs ∧ as.length = i ∧ p b = true ∧ ∀ a ∈ as, p a = false := by
  obtain ⟨hlen, hp, hbefore⟩ := List.findIdx?_eq_some_iff_getElem.mp h
  refine ⟨xs.take i, xs[i], xs.drop (i + 1), ?_, by rw [List.length_take]; omega, hp,
    fun a ha => ?_⟩
  · rw [List.getElem_cons_drop, List.take_append_drop]
  · obtain ⟨j, hj, rfl⟩ := List.mem_take_iff_getElem.mp ha
    exact Bool.eq_false_of_not_eq_true (hbefore j (by omega))

theorem not_iscrlf_of_isdigit {b : UInt8} (h : isdigit b = true) : iscrlf b = false := by
  apply Bool.eq_false_of_not_eq_true
  intro hcr
  have := isspace_of_iscrlf hcr
  rw [not_isspace_of_isdigit h] at this
  cases this

theorem Solid.head {b : UInt8} {r : Bytes} (h : Solid (b :: r)) : isspace b = false := by
  apply Bool.eq_false_of_not_eq_true
  intro hb
  simp [Solid, hb] at h

section Round

variable {o : ℕ} {r tail : Bytes}

theorem digits_of_solid {digits : Bytes} (hr : Solid (digits ++ space :: tail)) :
    1 ≤ digits.length := by
  cases digits with
  | nil => exact absurd hr.head (by decide)
  | cons d digits => simp

theorem garbage_of_skip {skipped rest : Bytes} {x b : UInt8} (hr : Solid r)
    (htail : afterDigits o r = x :: tail)
    (hx : x ≠ space) (hskip : x :: tail = skipped ++ b :: rest) (hcr : iscrlf b = true)
    (hline : ∀ a ∈ skipped, iscrlf a = false) : Garbage o (cappedDigits o r ++ skipped) := by
  have htail : r = cappedDigits o r ++ x :: tail := htail ▸ split_digits o r
  have hrun : r = (cappedDigits o r ++ skipped) ++ b :: rest := by
    rw [List.append_assoc, ← hskip]
    exact htail
  generalize hds : cappedDigits o r = ds at *
  refine ⟨?_, ?_, ?_⟩
  · cases hcase : ds ++ skipped with
    | nil =>
      -- the line end would be white space at the front
      rw [hcase, List.nil_append] at hrun
      rw [hrun] at hr
      have := hr.head
      rw [isspace_of_iscrlf hcr] at this
      cases this
    | cons a as =>
      rw [hcase, List.cons_append] at hrun
      rw [hrun] at hr
      exact ⟨a, as, rfl, hr.head⟩
  · intro a ha
    rcases List.mem_append.mp ha with ha | ha
    · rw [← hds] at ha
      exact not_iscrlf_of_isdigit (cappedDigits_isdigit a ha)
    · exact hline a ha
  · intro digits more heq hdigit
    by_contra hfits
    rw [heq, List.append_assoc, List.cons_append] at hrun
    have hall : cappedDigits o r = digits := cappedDigits_all hrun hdigit (by decide) (by omega)
    rw [← hds, hall] at htail
    have hboth := List.append_cancel_left (htail.symm.trans hrun)
    exact hx (List.cons.inj hboth).1

end Round

/-- The three things that a round can do. -/
theorem dispatchLoop_cases (c : ℤ) {pre ws r buf : Bytes} {o : ℕ} (hbuf : buf = pre ++ (ws ++ r))
    (ho : o = (pre ++ ws).length) (hws : ∀ b ∈ ws, isspace b = true) (hr : Solid r) (fuel : ℕ)
    (found : Bool) :
    (Stops o r ∧ dispatchLoop c buf (fuel + 1) pre.length found = ⟨[], o, found⟩) ∨
    (∃ run b rest, r = run ++ b :: rest ∧ Garbage o run ∧ iscrlf b = true ∧
      dispatchLoop c buf (fuel + 1) pre.length found =
        let t := dispatchLoop c buf fuel (o + run.length) found
        { t with calls := .sendFatalError c (text "Invalid message") :: t.calls }) ∨
    ∃ digits body rest, r = digits ++ space :: (body ++ rest) ∧ 1 ≤ digits.length ∧
      o + digits.length ≤ MAX_MSG_LEN_LEN ∧ (∀ b ∈ digits, isdigit b = true) ∧
        body.length = value digits ∧
      dispatchLoop c buf (fuel + 1) pre.length found =
        let t := dispatchLoop c buf fuel (o + digits.length + 1 + body.length) true
        { t with calls := .routeMessage c buf (o + digits.length + 1) body.length :: t.calls } := by
  have hround : dispatchLoop c (pre ++ (ws ++ r)) (fuel + 1) pre.length found = _ :=
    dispatchLoop_round c hws hr fuel found
  rw [← hbuf, ← ho] at hround
  have hsplit := split_digits o r
  have hcap := cappedDigits_length (o := o) (r := r)
  have hdrop : r.drop (cappedDigits o r).length = afterDigits o r := rfl
  simp only [cappedDigits_eq, getElem?_afterDigits] at hround
  cases htail : afterDigits o r with
  | nil => exact .inl ⟨by simp [Stops, htail], by rw [hround, htail]; rfl⟩
  | cons x tail =>
    rw [htail] at hround hsplit hdrop
    have hlen : r.length = (cappedDigits o r).length + (tail.length + 1) := by
      conv_lhs => rw [hsplit]
      rw [List.length_append, List.length_cons]
    by_cases hx : x = space
    · subst hx
      simp only [List.head?_cons, ne_eq, not_true_eq_false, if_false] at hround
      by_cases hshort : tail.length < value (cappedDigits o r)
      · rw [if_pos (by omega)] at hround
        exact .inl ⟨by simp [Stops, htail, hshort], hround⟩
      · have hbody : (tail.take (value (cappedDigits o r))).length = value (cappedDigits o r) := by
          rw [List.length_take]
          omega
        have hdigits : 1 ≤ (cappedDigits o r).length := digits_of_solid (hsplit ▸ hr)
        rw [if_neg (by omega)] at hround
        refine .inr (.inr ⟨_, _, tail.drop (value (cappedDigits o r)), ?_, hdigits, by omega,
          cappedDigits_isdigit,
          hbody, ?_⟩)
        · rw [List.take_append_drop]
          exact hsplit
        · rw [hbody]
          exact hround
    · simp only [List.head?_cons, ne_eq, hx, not_false_eq_true, if_true] at hround
      cases hfind : (x :: tail).findIdx? iscrlf with
      | none =>
        have hnone : (x :: tail).any iscrlf = false := by
          rw [List.any_eq_false]
          intro a ha
          simpa using List.findIdx?_eq_none_iff.mp hfind a ha
        simp only [hdrop, hfind] at hround
        refine .inl ⟨?_, hround⟩
        simp only [Stops, htail, hx, if_false]
        exact hnone
      | some i =>
        obtain ⟨skipped, b, rest, hskip, rfl, hcr, hline⟩ := split_of_findIdx? hfind
        simp only [hdrop, hfind] at hround
        refine .inr (.inl ⟨cappedDigits o r ++ skipped, b, rest, ?_,
          garbage_of_skip hr htail hx hskip hcr hline, hcr, ?_⟩)
        · rw [List.append_assoc, ← hskip]
          exact hsplit
        · rw [List.length_append, ← Nat.add_assoc]
          exact hround

/-! The pieces that a call takes off the buffer. -/

theorem bytesOf_cons (p : Piece) (ps : List Piece) :
    bytesOf (p :: ps) = p.bytes ++ bytesOf ps := rfl

/-- The buffer `r` from offset `o` on, as the loop takes it apart: `after` is what it leaves. -/
structure Taken (o : ℕ) (r : Bytes) (ps : List Piece) (after : Bytes) : Prop where
  whole : r = bytesOf ps ++ after
  fit : AllFit ps after
  solid : Solid after
  stops : Stops (o + (bytesOf ps).length) after
  noise : ps.any Piece.isFrame = false → Noise o (bytesOf ps)

theorem noise_blank {o : ℕ} {ws x : Bytes} (hws : ∀ b ∈ ws, isspace b = true)
    (h : Noise (o + ws.length) x) :
    Noise o (ws ++ x) := by
  induction ws generalizing o with
  | nil => exact h
  | cons b ws ih =>
    refine .blank (hws b List.mem_cons_self) (ih (fun a ha => hws a (List.mem_cons_of_mem b ha)) ?_)
    rwa [Nat.add_assoc, Nat.add_comm 1, ← List.length_cons]

section Taken

variable {o : ℕ} {ws r : Bytes} {ps : List Piece} {after : Bytes}

theorem Taken.stopped (hws : ∀ b ∈ ws, isspace b = true) (hr : Solid r)
    (h : Stops (o + ws.length) r) :
    Taken o (ws ++ r) [.blank ws] r where
  whole := by simp [bytesOf, Piece.bytes]
  fit := ⟨hws, trivial⟩
  solid := hr
  stops := by simpa [bytesOf, Piece.bytes] using h
  noise _ := by simpa [bytesOf, Piece.bytes] using noise_blank hws .nil

theorem Taken.garbage {run rest : Bytes} {b : UInt8} (hws : ∀ b ∈ ws, isspace b = true)
    (hrun : Garbage (o + ws.length) run)
    (hb : iscrlf b = true) (h : Taken (o + ws.length + run.length) (b :: rest) ps after) :
    Taken o (ws ++ (run ++ b :: rest)) (.blank ws :: .garbage run :: ps) after where
  whole := by
    rw [bytesOf_cons, bytesOf_cons, List.append_assoc, List.append_assoc, ← h.whole]
    rfl
  fit := by
    refine ⟨hws, ⟨?_, b, rest, h.whole.symm, hb⟩, h.fit⟩
    obtain ⟨a, as, rfl, -⟩ := hrun.solid
    simp
  solid := h.solid
  stops := by
    rw [bytesOf_cons, bytesOf_cons, List.length_append, List.length_append, ← Nat.add_assoc,
      ← Nat.add_assoc]
    exact h.stops
  noise hnone := by
    rw [bytesOf_cons, bytesOf_cons]
    apply noise_blank hws
    -- the line end is white space, so it is not left behind
    cases hps : bytesOf ps with
    | nil =>
      have hafter := h.solid
      have hwhole := h.whole
      rw [hps, List.nil_append] at hwhole
      rw [← hwhole] at hafter
      have hblank := hafter.head
      rw [isspace_of_iscrlf hb] at hblank
      cases hblank
    | cons a x =>
      have hwhole := h.whole
      rw [hps, List.cons_append] at hwhole
      obtain ⟨rfl, -⟩ := List.cons.inj hwhole
      exact .garbage hrun hb (hps ▸ h.noise (by simpa [Piece.isFrame] using hnone))

theorem Taken.frame {digits body rest : Bytes} (hws : ∀ b ∈ ws, isspace b = true)
    (hsome : 1 ≤ digits.length)
    (hnine : digits.length ≤ 9) (hdigit : ∀ b ∈ digits, isdigit b = true)
    (hbody : body.length = value digits)
    (h : Taken (o + ws.length + digits.length + 1 + body.length) rest ps after) :
    Taken o (ws ++ (digits ++ space :: (body ++ rest)))
      (.blank ws :: .frame digits body :: ps) after where
  whole := by
    rw [bytesOf_cons, bytesOf_cons, List.append_assoc, List.append_assoc, ← h.whole]
    simp [Piece.bytes]
  fit := ⟨hws, ⟨hsome, hnine, hdigit, hbody⟩, h.fit⟩
  solid := h.solid
  stops := by
    have hlen : o + (bytesOf (.blank ws :: .frame digits body :: ps)).length =
        o + ws.length + digits.length + 1 + body.length + (bytesOf ps).length := by
      rw [bytesOf_cons, bytesOf_cons]
      simp only [Piece.bytes, List.length_append, List.length_cons]
      omega
    rw [hlen]
    exact h.stops
  noise hnone := by simp [Piece.isFrame] at hnone

end Taken

theorem split_blank (r : Bytes) :
    ∃ ws r', r = ws ++ r' ∧ (∀ b ∈ ws, isspace b = true) ∧ Solid r' := by
  refine ⟨r.takeWhile isspace, r.dropWhile isspace, List.takeWhile_append_dropWhile.symm,
    fun b hb => List.mem_takeWhile_imp hb, ?_⟩
  cases hd : r.dropWhile isspace with
  | nil => rfl
  | cons b r' =>
    apply solid_of_head
    have := List.head?_dropWhile_not isspace r
    simpa [hd] using this

/-- The loop from `pos` on: the calls it makes are those of the pieces that it takes off. The
induction is on the rounds, each of which takes off white space and one more piece. -/
theorem dispatchLoop_taken (c : ℤ) (fuel : ℕ) : ∀ (pre r : Bytes) (found : Bool), r.length < fuel →
    ∃ ps after, Taken pre.length r ps after ∧
      dispatchLoop c (pre ++ r) fuel pre.length found =
        ⟨callsOf c (pre ++ r) pre.length ps, pre.length + (bytesOf ps).length,
          found || ps.any Piece.isFrame⟩ := by
  induction fuel with
  | zero =>
    intro pre r found h
    omega
  | succ fuel ih =>
    intro pre r found hfuel
    obtain ⟨ws, r, rfl, hws, hr⟩ := split_blank r
    have ho : pre.length + ws.length = (pre ++ ws).length := List.length_append.symm
    rw [List.length_append] at hfuel
    obtain ⟨hstops, hloop⟩ | ⟨run, b, rest, rfl, hrun, hcr, hloop⟩ |
      ⟨digits, body, rest, rfl, hsome, hnine, hdigit, hbody, hloop⟩ :=
        dispatchLoop_cases c rfl ho hws hr fuel found
    · refine ⟨_, r, .stopped hws hr hstops, ?_⟩
      rw [hloop]
      simp [callsOf, Piece.call, bytesOf, Piece.bytes, Piece.isFrame]
    · have hlen : (pre ++ ws ++ run).length = pre.length + ws.length + run.length := by
        simp [Nat.add_assoc]
      have hbuf : pre ++ ws ++ run ++ b :: rest = pre ++ (ws ++ (run ++ b :: rest)) := by simp
      have hshort : (b :: rest).length < fuel := by
        obtain ⟨a, as, rfl, -⟩ := hrun.solid
        simp only [List.length_append, List.length_cons] at hfuel ⊢
        omega
      obtain ⟨ps, after, htaken, hnext⟩ := ih (pre ++ ws ++ run) (b :: rest) found hshort
      rw [hlen, hbuf] at hnext
      rw [hlen] at htaken
      refine ⟨_, after, .garbage hws hrun hcr htaken, ?_⟩
      rw [hloop, hnext]
      simp only [callsOf, Piece.call, Piece.bytes, bytesOf_cons, List.length_append,
        Option.toList_some, Option.toList_none,
        List.nil_append, List.singleton_append, List.any_cons, Piece.isFrame, Bool.false_or,
          Nat.add_assoc]
    · have hlen : (pre ++ ws ++ digits ++ [space] ++ body).length =
          pre.length + ws.length + digits.length + 1 + body.length := by
        simp only [List.length_append, List.length_singleton]
      have hbuf : pre ++ ws ++ digits ++ [space] ++ body ++ rest =
          pre ++ (ws ++ (digits ++ space :: (body ++ rest))) := by
        simp
      have hshort : rest.length < fuel := by
        simp only [List.length_append, List.length_cons] at hfuel
        omega
      obtain ⟨ps, after, htaken, hnext⟩ :=
        ih (pre ++ ws ++ digits ++ [space] ++ body) rest true hshort
      rw [hlen, hbuf] at hnext
      rw [hlen] at htaken
      have hnine' : digits.length ≤ 9 := by
        change _ ≤ 9 at hnine
        omega
      refine ⟨_, after, .frame hws hsome hnine' hdigit hbody htaken, ?_⟩
      rw [hloop, hnext]
      simp only [callsOf, Piece.call, Piece.bytes, bytesOf_cons, List.length_append,
        List.length_cons, Option.toList_some,
        Option.toList_none, List.nil_append, List.singleton_append, List.any_cons, Piece.isFrame,
        Bool.true_or, Bool.or_true, Nat.add_assoc, Nat.add_comm 1]

theorem dispatchRequest_taken (c : ℤ) (buf : Bytes) :
    ∃ ps after, Taken 0 buf ps after ∧
      dispatchRequest c buf = (callsOf c buf 0 ps, after, ps.any Piece.isFrame) := by
  obtain ⟨ps, after, htaken, hloop⟩ := dispatchLoop_taken c (buf.length + 1) [] buf false (by omega)
  refine ⟨ps, after, htaken, ?_⟩
  simp only [List.nil_append, List.length_nil, Nat.zero_add, Bool.false_or] at hloop
  have hdrop : buf.drop (bytesOf ps).length = after := by
    conv_lhs => rw [htaken.whole]
    exact List.drop_left
  rw [dispatchRequest, hloop, hdrop]

/-! Where the loop stops. -/

section Stops

variable {o o' : ℕ} {r run rest digits : Bytes} {b : UInt8}

theorem Garbage.isSolid (h : Garbage o run) : Solid run := by
  obtain ⟨a, as, rfl, ha⟩ := h.solid
  exact solid_of_head ha

theorem run_of_field {tail : Bytes} (h : run ++ b :: rest = digits ++ space :: tail)
    (hb : iscrlf b = true)
    (hdigit : ∀ d ∈ digits, isdigit d = true) : ∃ more, run = digits ++ space :: more := by
  rcases List.append_eq_append_iff.mp h with ⟨as, hdigits, has⟩ | ⟨as, hrun, has⟩
  · cases as with
    | nil =>
      obtain ⟨rfl, -⟩ := List.cons.inj has
      cases hb
    | cons a as =>
      obtain ⟨rfl, -⟩ := List.cons.inj has
      have hd := hdigit b (by rw [hdigits]; simp)
      rw [not_iscrlf_of_isdigit hd] at hb
      cases hb
  · cases as with
    | nil =>
      obtain ⟨rfl, -⟩ := List.cons.inj has
      cases hb
    | cons a as =>
      obtain ⟨rfl, -⟩ := List.cons.inj has
      exact ⟨as, hrun⟩

theorem Stops.not_garbage (h : Stops o r) (hr : r = run ++ b :: rest) (hb : iscrlf b = true)
    (hrun : Garbage o' run)
    (ho : o' ≤ o) : False := by
  have hsplit := split_digits o r
  have hmem : b ∈ afterDigits o r := by
    have hmem : b ∈ cappedDigits o r ++ afterDigits o r := by
      rw [← hsplit, hr]
      simp
    rcases List.mem_append.mp hmem with hd | hd
    · rw [not_iscrlf_of_isdigit (cappedDigits_isdigit b hd)] at hb
      cases hb
    · exact hd
  unfold Stops at h
  cases htail : afterDigits o r with
  | nil => simp [htail] at hmem
  | cons x tail =>
    rw [htail] at h hsplit hmem
    dsimp only at h
    split_ifs at h with hx
    · subst hx
      obtain ⟨more, hmore⟩ := run_of_field (hr.symm.trans hsplit) hb cappedDigits_isdigit
      have hlate := hrun.unframed _ _ hmore cappedDigits_isdigit
      have hcap := cappedDigits_length (o := o) (r := r)
      have hsolid := hrun.isSolid
      rw [hmore] at hsolid
      have hdigits := digits_of_solid hsolid
      omega
    · rw [List.any_eq_false] at h
      exact h b hmem hb

theorem ne_space_of_isdigit (h : isdigit b = true) : b ≠ space := by
  rintro rfl
  cases h

/-- A digit of a late length field is not read. -/
theorem afterDigits_late (hr : r = digits ++ space :: rest) (hc : CompleteFrame digits rest)
    (hlate : MAX_MSG_LEN_LEN < o + digits.length) :
    ∃ d ds, (∀ a ∈ d :: ds, isdigit a = true) ∧ afterDigits o r = d :: (ds ++ space :: rest) := by
  have hcap := cappedDigits_length (o := o) (r := r)
  have hfew : (cappedDigits o r).length < digits.length := by
    have := hc.some_digit
    omega
  have htail : afterDigits o r = digits.drop (cappedDigits o r).length ++ space :: rest := by
    have hdrop := congrArg (List.drop (cappedDigits o r).length) hr
    exact hdrop.trans (List.drop_append_of_le_length hfew.le)
  obtain ⟨d, ds, hds⟩ : ∃ d ds, digits.drop (cappedDigits o r).length = d :: ds :=
    List.exists_cons_of_ne_nil (by simpa using hfew)
  refine ⟨d, ds, ?_, by rw [htail, hds, List.cons_append]⟩
  intro a ha
  exact hc.digit a (List.mem_of_mem_drop (hds ▸ ha))

/-- If the loop stops in front of a complete frame, this is late and no line end follows. -/
theorem Stops.late (h : Stops o r) (hr : r = digits ++ space :: rest)
    (hc : CompleteFrame digits rest) :
    MAX_MSG_LEN_LEN < o + digits.length ∧ ∀ b ∈ rest, iscrlf b = false := by
  have hsplit := split_digits o r
  have hlate : MAX_MSG_LEN_LEN < o + digits.length := by
    by_contra hfits
    have hall : cappedDigits o r = digits := cappedDigits_all hr hc.digit (by decide) (by omega)
    rw [hall] at hsplit
    have htail : afterDigits o r = space :: rest := List.append_cancel_left (hsplit.symm.trans hr)
    unfold Stops at h
    rw [htail, hall] at h
    dsimp only at h
    rw [if_pos rfl] at h
    have := hc.whole
    omega
  refine ⟨hlate, ?_⟩
  obtain ⟨d, ds, hdigit, htail⟩ := afterDigits_late hr hc hlate
  unfold Stops at h
  rw [htail] at h
  dsimp only at h
  rw [if_neg (ne_space_of_isdigit (hdigit d List.mem_cons_self)), List.any_eq_false] at h
  intro b hb
  exact Bool.eq_false_of_not_eq_true (h b (by simp [hb]))

/-- In front of what is no complete request the loop stops at any offset. -/
theorem Stops.zero (h : Stops o r) (hr : Solid r) (hc : ¬ Complete r) : Stops 0 r := by
  have hsuffix : afterDigits 0 r <:+ afterDigits o r := by
    have hlen : (cappedDigits o r).length ≤ (cappedDigits 0 r).length := by
      simp only [cappedDigits, List.length_take]
      omega
    rw [afterDigits, ← Nat.add_sub_cancel' hlen, ← List.drop_drop]
    exact List.drop_suffix _ _
  unfold Stops
  cases htail : afterDigits 0 r with
  | nil => trivial
  | cons x tail =>
    have hsplit := split_digits 0 r
    rw [htail] at hsplit hsuffix
    dsimp only
    split_ifs with hx
    · subst hx
      by_contra hwhole
      refine hc ⟨[], cappedDigits 0 r, tail, hsplit, by simp, ?_, cappedDigits_length,
        cappedDigits_isdigit, by omega⟩
      exact digits_of_solid (hsplit ▸ hr)
    · -- a digit or the same byte stops the loop at the other offset
      unfold Stops at h
      cases htail' : afterDigits o r with
      | nil =>
        rw [htail'] at hsuffix
        simp at hsuffix
      | cons y tail' =>
        rw [htail'] at h hsuffix
        dsimp only at h
        split_ifs at h with hy
        · -- all the digits were read there, so they are here too
          subst hy
          have hsplit' := split_digits o r
          rw [htail'] at hsplit'
          have hcap := cappedDigits_length (o := o) (r := r)
          have hsame : cappedDigits 0 r = cappedDigits o r :=
            cappedDigits_all hsplit' cappedDigits_isdigit (by decide) (by omega)
          rw [afterDigits, hsame] at htail
          rw [afterDigits, htail] at htail'
          exact absurd (List.cons.inj htail').1 hx
        · rw [List.any_eq_false] at h ⊢
          exact fun a ha => h a (hsuffix.subset ha)

/-- A buffer that starts with what has stopped the loop: nothing is taken off. -/
theorem Taken.of_stops {ps : List Piece} {after : Bytes} (h : Taken 0 r ps after) (hr : Solid r)
    (hstops : Stops o r)
    (hnone : ps.any Piece.isFrame = false) : after = r := by
  have hwhole := h.whole
  have hnoise := h.noise hnone
  generalize bytesOf ps = x at hwhole hnoise
  cases hnoise with
  | nil => exact hwhole.symm
  | blank hb _ =>
    rw [hwhole, List.cons_append] at hr
    rw [hr.head] at hb
    cases hb
  | garbage hrun hb _ =>
    rw [List.append_assoc, List.cons_append] at hwhole
    exact (hstops.not_garbage hwhole hb hrun (Nat.zero_le o)).elim

theorem dispatchLoop_stops (c : ℤ) {pre : Bytes} (hr : Solid r) (h : Stops pre.length r) (fuel : ℕ)
    (found : Bool) :
    dispatchLoop c (pre ++ r) (fuel + 1) pre.length found = ⟨[], pre.length, found⟩ := by
  have hlen : pre.length = (pre ++ ([] : Bytes)).length := by rw [List.append_nil]
  have hbuf : pre ++ r = pre ++ ([] ++ r) := rfl
  obtain ⟨-, hloop⟩ | ⟨run, b, rest, rfl, hrun, hcr, -⟩ |
      ⟨digits, body, rest, rfl, hsome, hnine, hdigit, hbody, -⟩ :=
    dispatchLoop_cases c hbuf hlen (by simp) hr fuel found
  · exact hloop
  · exact (h.not_garbage rfl hcr hrun le_rfl).elim
  · have hc : CompleteFrame digits (body ++ rest) := by
      refine ⟨hsome, ?_, hdigit, by simp [hbody]⟩
      change _ ≤ 9 at hnine
      omega
    have := (h.late rfl hc).1
    omega

theorem dispatchRequest_stops (c : ℤ) (hr : Solid r) (h : Stops 0 r) :
    dispatchRequest c r = ([], r, false) := by
  have hfront : Stops ([] : Bytes).length r := h
  have hloop : dispatchLoop c ([] ++ r) (r.length + 1) 0 false = ⟨[], 0, false⟩ :=
    dispatchLoop_stops c hr hfront r.length false
  rw [List.nil_append] at hloop
  rw [dispatchRequest, hloop]
  rfl

end Stops

end Xaprun
