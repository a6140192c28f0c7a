import Xaprun.Spec.Requests

/-! One round of the framing loop, by what stands at the front of the unread part
of the buffer: white space only, an unfinished or late length field, or a whole
length field. The buffer is written `p ++ r` with `p` the part already dealt with. -/

namespace Xaprun

open Frames

def Solid (r : Bytes) : Prop := r.takeWhile isspace = []

theorem solid_of_head {b : UInt8} {r : Bytes} (h : isspace b = false) : Solid (b :: r) := by
  simp [Solid, h]

theorem skipSpace_append {pre ws r : Bytes} (hws : ∀ b ∈ ws, isspace b = true) (hr : Solid r) :
    skipSpace (pre ++ (ws ++ r)) pre.length = (pre ++ ws).length := by
  unfold Solid at hr
  simp only [skipSpace, List.drop_left, List.takeWhile_append_of_pos hws, hr, List.append_nil,
    List.length_append]

theorem lengthDigits_append (p r : Bytes) :
    lengthDigits (p ++ r) p.length =
      (r.take (min (p.length + r.length) MAX_MSG_LEN_LEN - p.length)).takeWhile isdigit := by
  have hmin : (if (p ++ r).length < MAX_MSG_LEN_LEN then (p ++ r).length else MAX_MSG_LEN_LEN) =
      min (p.length + r.length) MAX_MSG_LEN_LEN := by
    rw [List.length_append]
    split_ifs with h <;> omega
  simp only [lengthDigits, hmin, List.drop_left]

/-- The loop seen from the unread part: `ws` is skipped, then the digits of `r` decide. -/
theorem dispatchLoop_round (c : ℤ) {pre ws r : Bytes} (hws : ∀ b ∈ ws, isspace b = true)
    (hr : Solid r) (fuel : ℕ) (found : Bool) :
    dispatchLoop c (pre ++ (ws ++ r)) (fuel + 1) pre.length found =
      (let o := (pre ++ ws).length
       let ds := (r.take (min (o + r.length) MAX_MSG_LEN_LEN - o)).takeWhile isdigit
       match r[ds.length]? with
       | none => ⟨[], o, found⟩
       | some b =>
         if b ≠ space then
           match (r.drop ds.length).findIdx? iscrlf with
           | some i =>
             let t := dispatchLoop c (pre ++ (ws ++ r)) fuel (o + ds.length + i) found
             { t with calls := .sendFatalError c (text "Invalid message") :: t.calls }
           | none => ⟨[], o, found⟩
         else if o + r.length < o + ds.length + 1 + value ds then ⟨[], o, found⟩
         else
           let t := dispatchLoop c (pre ++ (ws ++ r)) fuel (o + ds.length + 1 + value ds) true
           { t with calls :=
              .routeMessage c (pre ++ (ws ++ r)) (o + ds.length + 1) (value ds) :: t.calls }) := by
  have hassoc : pre ++ (ws ++ r) = (pre ++ ws) ++ r := (List.append_assoc _ _ _).symm
  have hskip : skipSpace (pre ++ ws ++ r) pre.length = (pre ++ ws).length := by
    rw [List.append_assoc]; exact skipSpace_append hws hr
  rw [hassoc]
  simp only [dispatchLoop, hskip, lengthDigits_append, findFrom]
  generalize (r.take (min ((pre ++ ws).length + r.length) MAX_MSG_LEN_LEN -
    (pre ++ ws).length)).takeWhile
    isdigit = ds
  have hget : (pre ++ ws ++ r)[(pre ++ ws).length + ds.length]? = r[ds.length]? := by
    rw [List.getElem?_append_right (by omega)]
    congr 1; omega
  rw [hget, List.drop_length_add_append]
  cases r[ds.length]? with
  | none => rfl
  | some b => cases (r.drop ds.length).findIdx? iscrlf <;> simp [Nat.add_assoc]

theorem round_blank (c : ℤ) {pre r : Bytes} (h : ∀ b ∈ r, isspace b = true) (fuel : ℕ)
    (found : Bool) :
    dispatchLoop c (pre ++ r) (fuel + 1) pre.length found = ⟨[], (pre ++ r).length, found⟩ := by
  have hround : dispatchLoop c (pre ++ (r ++ [])) (fuel + 1) pre.length found = _ :=
    dispatchLoop_round c h (r := []) rfl fuel found
  simpa using hround

section Field

variable {pre ws r y z : Bytes} {n : ℕ}

theorem solid_of_numeral (h : r ++ y = dec n ++ z) : Solid r := by
  cases r with
  | nil => rfl
  | cons b r =>
    obtain ⟨d, ds, hd⟩ := List.exists_cons_of_ne_nil (dec_ne_nil n)
    have hb : b = d := by rw [hd] at h; simpa using congrArg List.head? h
    exact solid_of_head (not_isspace_of_isdigit (dec_isdigit b (by rw [hd, hb]; simp)))

theorem take_isdigit (h : r ++ y = dec n ++ z) {k : ℕ} (hk : k ≤ (dec n).length) :
    ∀ b ∈ r.take k, isdigit b = true := by
  intro b hb
  have hpre : r.take k <+: dec n := by
    have h1 : r.take k <+: dec n ++ z := h ▸ (List.take_prefix k r).trans (List.prefix_append r y)
    exact List.prefix_of_prefix_length_le h1 (List.prefix_append _ _)
      ((List.length_take_le k r).trans hk)
  exact dec_isdigit b (hpre.subset hb)

theorem getElem_isdigit (h : r ++ y = dec n ++ z) {k : ℕ} (hk : k < (dec n).length) {b : UInt8}
    (hb : r[k]? = some b) : isdigit b = true := by
  have hlt : k < r.length := (List.getElem?_eq_some_iff.mp hb).1
  have h1 : (r ++ y)[k]? = some b := by rw [List.getElem?_append_left hlt, hb]
  rw [h, List.getElem?_append_left hk] at h1
  exact dec_isdigit b (List.mem_of_getElem? h1)

theorem late_digits (h : r ++ y = dec n ++ z) {o : ℕ}
    (hlate : MAX_MSG_LEN_LEN < o + (dec n).length) :
    ∃ k < (dec n).length,
      (r.take (min (o + r.length) MAX_MSG_LEN_LEN - o)).takeWhile isdigit = r.take k ∧
        (r.take k).length = k := by
  have hd := dec_length_pos n
  refine ⟨min (o + r.length) MAX_MSG_LEN_LEN - o, by omega, ?_, by rw [List.length_take]; omega⟩
  exact List.takeWhile_eq_self_iff.mpr (take_isdigit h (by omega))

/-- A late length field with no line end after it: the loop stops before the frame. -/
theorem round_late (c : ℤ) (hws : ∀ b ∈ ws, isspace b = true) (h : r ++ y = dec n ++ z)
    (hlate : MAX_MSG_LEN_LEN < (pre ++ ws).length + (dec n).length) (hcr : r.any iscrlf = false)
    (fuel : ℕ) (found : Bool) :
    dispatchLoop c (pre ++ (ws ++ r)) (fuel + 1) pre.length found =
      ⟨[], (pre ++ ws).length, found⟩ := by
  obtain ⟨k, hk, hds, hlen⟩ := late_digits h hlate
  rw [dispatchLoop_round c hws (solid_of_numeral h)]
  simp only [hds, hlen]
  have hnone : (r.drop k).findIdx? iscrlf = none := by
    rw [List.findIdx?_eq_none_iff]
    intro b hb
    exact Bool.eq_false_of_not_eq_true (List.any_eq_false.mp hcr b (List.mem_of_mem_drop hb))
  cases hg : r[k]? with
  | none => rfl
  | some b =>
    have hb : b ≠ space := fun he => by
      have := getElem_isdigit h hk hg
      rw [he] at this
      exact absurd this (by decide)
    simp only [ne_eq, hb, not_false_eq_true, if_true, hnone]

/-- A late length field with a line end after it is taken for garbage. -/
theorem round_resync (c : ℤ) (hws : ∀ b ∈ ws, isspace b = true) (h : r ++ y = dec n ++ z)
    (hlate : MAX_MSG_LEN_LEN < (pre ++ ws).length + (dec n).length) (hcr : r.any iscrlf = true)
    (fuel : ℕ) (found : Bool) :
    .sendFatalError c (text "Invalid message") ∈
      (dispatchLoop c (pre ++ (ws ++ r)) (fuel + 1) pre.length found).calls := by
  obtain ⟨k, hk, hds, hlen⟩ := late_digits h hlate
  rw [dispatchLoop_round c hws (solid_of_numeral h)]
  simp only [hds, hlen]
  -- the line end is not among the digits, so it comes after them
  obtain ⟨e, he, hecr⟩ := List.any_eq_true.mp hcr
  have hmem : e ∈ r.drop k := by
    rw [← List.take_append_drop k r] at he
    rcases List.mem_append.mp he with hd | hd
    · have hdig := take_isdigit h hk.le e hd
      have := not_isspace_of_isdigit hdig
      rw [isspace_of_iscrlf hecr] at this
      exact absurd this (by decide)
    · exact hd
  obtain ⟨i, hi⟩ : ∃ i, (r.drop k).findIdx? iscrlf = some i := by
    rw [← Option.isSome_iff_exists, List.findIdx?_isSome]
    exact List.any_eq_true.mpr ⟨e, hmem, hecr⟩
  have hlt : k < r.length := by
    by_contra hge
    rw [List.drop_eq_nil_of_le (by omega)] at hmem
    simp at hmem
  have hb : r[k] ≠ space := fun hsp => by
    have := getElem_isdigit h hk (List.getElem?_eq_getElem hlt)
    rw [hsp] at this
    exact absurd this (by decide)
  simp only [List.getElem?_eq_getElem hlt, ne_eq, hb, not_false_eq_true, if_true, hi]
  simp

theorem round_short (c : ℤ) (hws : ∀ b ∈ ws, isspace b = true) (h : r ++ y = dec n ++ z)
    (hfits : (pre ++ ws).length + (dec n).length ≤ MAX_MSG_LEN_LEN) (hr : r.length ≤ (dec n).length)
    (fuel : ℕ) (found : Bool) :
    dispatchLoop c (pre ++ (ws ++ r)) (fuel + 1) pre.length found =
      ⟨[], (pre ++ ws).length, found⟩ := by
  have hk : min ((pre ++ ws).length + r.length) MAX_MSG_LEN_LEN - (pre ++ ws).length =
      r.length := by
    omega
  have hds : (r.take r.length).takeWhile isdigit = r := by
    rw [List.takeWhile_eq_self_iff.mpr (take_isdigit h hr), List.take_length]
  rw [dispatchLoop_round c hws (solid_of_numeral h)]
  simp only [hk, hds, List.getElem?_eq_none le_rfl]

/-- A whole length field: wait for the body, or route it. -/
theorem round_header (c : ℤ) (hws : ∀ b ∈ ws, isspace b = true)
    (hfits : (pre ++ ws).length + (dec n).length ≤ MAX_MSG_LEN_LEN) (r : Bytes) (fuel : ℕ)
    (found : Bool) :
    let buf := pre ++ (ws ++ (dec n ++ space :: r))
    let pos := (pre ++ ws).length + (dec n).length + 1
    dispatchLoop c buf (fuel + 1) pre.length found =
      if r.length < n then ⟨[], (pre ++ ws).length, found⟩
      else
        let t := dispatchLoop c buf fuel (pos + n) true
        { t with calls := .routeMessage c buf pos n :: t.calls } := by
  intro buf pos
  have hds : ((dec n ++ space :: r).take (min ((pre ++ ws).length + (dec n ++ space :: r).length)
      MAX_MSG_LEN_LEN - (pre ++ ws).length)).takeWhile isdigit = dec n := by
    obtain ⟨j, hj⟩ : ∃ j, min ((pre ++ ws).length + (dec n ++ space :: r).length) MAX_MSG_LEN_LEN -
        (pre ++ ws).length = (dec n).length + j :=
      Nat.exists_eq_add_of_le (by simp only [List.length_append, List.length_cons] at *; omega)
    rw [hj, List.take_length_add_append, List.takeWhile_append_of_pos dec_isdigit]
    have hnil : ((space :: r).take j).takeWhile isdigit = [] := by
      cases j with
      | zero => rfl
      | succ j => rfl
    rw [hnil, List.append_nil]
  have hget : (dec n ++ space :: r)[(dec n).length]? = some space := by
    rw [List.getElem?_append_right le_rfl, Nat.sub_self]; rfl
  show dispatchLoop c (pre ++ (ws ++ (dec n ++ space :: r))) (fuel + 1) pre.length found = _
  rw [dispatchLoop_round c hws (solid_of_numeral (y := []) (List.append_nil _))]
  have hlen : (dec n ++ space :: r).length = (dec n).length + 1 + r.length := by
    simp only [List.length_append, List.length_cons]; omega
  simp only [hds, hget, value_dec, ne_eq, not_true_eq_false, if_false]
  by_cases hlt : r.length < n
  · rw [if_pos (by omega), if_pos hlt]
  · rw [if_neg (by omega), if_neg hlt]

end Field

end Xaprun
