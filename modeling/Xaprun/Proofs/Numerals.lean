import Mathlib.Algebra.Order.Ring.Nat
import Xaprun.Proofs.Decoding
import Xaprun.Spec.Numerals

/-! The buffers of `ext/str.cc` are large enough: five digits for two bytes. -/

namespace Xaprun.Numerals

open Frames

theorem bytes_le_digits (size : ℕ) : 2 ^ (8 * size) ≤ 10 ^ ((size * 5 + 1) / 2) := by
  induction size using Nat.twoStepInduction with
  | zero => decide
  | one => decide
  | more size ih _ =>
    have hbytes : 8 * (size + 2) = 8 * size + 16 := by omega
    have hdigits : ((size + 2) * 5 + 1) / 2 = (size * 5 + 1) / 2 + 5 := by omega
    rw [hbytes, hdigits, pow_add, pow_add]
    exact Nat.mul_le_mul ih (by decide)

theorem digits_eq {room : ℕ} : ∀ {value : ℕ} (chars : Bytes), 0 < value → value < 10 ^ room →
    ∃ left, digits room value chars = some ⟨left, dec value ++ chars⟩ ∧
      left + (dec value).length = room := by
  induction room with
  | zero =>
    intro value chars hpos hlt
    rw [pow_zero] at hlt
    omega
  | succ room ih =>
    intro value chars hpos hlt
    unfold digits
    by_cases hone : value < 10
    · refine ⟨room, ?_, ?_⟩
      · rw [if_pos (Nat.div_eq_of_lt hone), Nat.mod_eq_of_lt hone, dec_one_digit hone]
        rfl
      · rw [dec_one_digit hone]
        rfl
    · have hrest : value / 10 < 10 ^ room := by
        rw [Nat.div_lt_iff_lt_mul (by decide), ← pow_succ]
        exact hlt
      obtain ⟨left, heq, hlen⟩ := ih (digitByte (value % 10) :: chars) (by omega) hrest
      have hdec := dec_succ_digit (n := value) (by omega)
      refine ⟨left, ?_, ?_⟩
      · rw [if_neg (by omega), heq, hdec, List.append_assoc]
        rfl
      · rw [hdec, List.length_append, List.length_singleton]
        omega

/-! The unsigned types. -/

theorem tostringUnsigned_eq (size : ℕ) (value : BitVec (8 * size)) :
    tostringUnsigned size value = some (dec value.toNat) := by
  unfold tostringUnsigned
  split_ifs with hone
  · rw [dec_one_digit hone]
  · have hroom : value.toNat < 10 ^ ((size * 5 + 1) / 2) :=
      value.isLt.trans_le (bytes_le_digits size)
    obtain ⟨left, heq, -⟩ := digits_eq [] (by omega) hroom
    rw [heq, List.append_nil]
    rfl

/-- The largest number of eight bytes fills the buffer. -/
example : digits 20 (2 ^ 64 - 1) [] = some ⟨0, text "18446744073709551615"⟩ := rfl

/-! The signed types. -/

theorem natAbs_lt {size : ℕ} (value : BitVec (8 * size)) :
    value.toInt.natAbs < 10 ^ ((size * 5 + 1) / 2) := by
  refine lt_of_lt_of_le ?_ (bytes_le_digits size)
  have hlt := BitVec.two_mul_toInt_lt (x := value)
  have hle := BitVec.le_two_mul_toInt (x := value)
  have hpos := Nat.two_pow_pos (8 * size)
  have hcast : ((2 ^ (8 * size) : ℕ) : ℤ) = 2 ^ (8 * size) := by simp
  rw [← hcast] at hlt hle
  omega

/-- There is room for the sign too, unless the value is the least of all: that one cannot be
negated. -/
theorem tostring_eq {size : ℕ} {value : BitVec (8 * size)} (h : value.negOverflow = false) :
    tostring size value = some (signed value.toInt) := by
  have hlt := natAbs_lt value
  have hroom : value.toInt.natAbs < 10 ^ ((size * 5 + 1) / 2 + 1) :=
    hlt.trans (Nat.pow_lt_pow_succ (by decide))
  by_cases hone : value.toInt < 10 ∧ 0 ≤ value.toInt
  · have hnat : value.toInt.toNat = value.toInt.natAbs := by omega
    rw [tostring, if_pos hone, signed, if_neg (not_lt.mpr hone.2), hnat, dec_one_digit (by omega)]
  by_cases hneg : value.toInt < 0
  · have hvalue : (-value).toInt.toNat = value.toInt.natAbs := by
      rw [BitVec.toInt_neg_of_not_negOverflow (by simp [h])]
      omega
    obtain ⟨left, heq, hlen⟩ := digits_eq [] (by omega) hroom
    have hbase : 0 < (size * 5 + 1) / 2 := by
      by_contra hzero
      rw [Nat.eq_zero_of_not_pos hzero, pow_zero] at hlt
      omega
    have hshort := dec_length_le hbase hlt
    obtain ⟨room, rfl⟩ : ∃ room, left = room + 1 := ⟨left - 1, by omega⟩
    rw [tostring, if_neg hone, if_pos hneg, h, if_neg Bool.false_ne_true, hvalue, heq,
      List.append_nil, signed, if_pos hneg]
    rfl
  · have hnat : value.toInt.toNat = value.toInt.natAbs := by omega
    obtain ⟨left, heq, -⟩ := digits_eq [] (by omega) hroom
    rw [tostring, if_neg hone, if_neg hneg, hnat, heq, List.append_nil, signed, if_neg hneg]
    rfl

/-! What the client reads. -/

theorem strip_minus {ds : Bytes} (h : ∀ b ∈ ds, isdigit b = true) :
    Client.strip (byte '-' :: ds) = byte '-' :: ds := by
  have hnot : ∀ b ∈ byte '-' :: ds, ¬ isspace b = true := by
    intro b hb
    rcases List.mem_cons.mp hb with rfl | hb
    · decide
    · simp [not_isspace_of_isdigit (h b hb)]
  have hleft : (byte '-' :: ds).dropWhile isspace = byte '-' :: ds :=
    List.dropWhile_eq_self_iff.mpr fun hl => hnot _ (List.getElem_mem _)
  rw [Client.strip, hleft, List.rdropWhile_eq_self_iff]
  exact fun hne => hnot _ (List.getLast_mem hne)

theorem int_signed (n : ℤ) : Client.int (signed n) = some n := by
  unfold signed
  split_ifs with hneg
  · have hunsigned : Client.unsigned (dec n.natAbs) = some n.natAbs := by
      rw [Client.unsigned, if_pos ⟨dec_ne_nil _, List.all_eq_true.mpr dec_isdigit⟩, value_dec]
    have hint : Client.int (byte '-' :: dec n.natAbs) = some (-(n.natAbs : ℤ)) := by
      rw [Client.int, strip_minus dec_isdigit]
      simp only [if_true, hunsigned]
      rfl
    rw [hint]
    congr 1
    omega
  · rw [Client.int_dec]
    congr 1
    omega

/-- Whatever the size of the type, `str` writes no byte outside of its buffer and the client reads
the number back; but the least number of a signed type cannot be written. -/
theorem numerals_read_back (size : ℕ) (value : BitVec (8 * size)) :
    (tostringUnsigned size value = some (str value.toNat) ∧ Client.int (str value.toNat) = some
      (value.toNat : ℤ)) ∧
      ((∃ chars, tostring size value = some chars) ↔ value.negOverflow = false) ∧
      ∀ chars, tostring size value = some chars → chars = signed value.toInt ∧
        Client.int chars = some value.toInt := by
  have hover : value.negOverflow = true → tostring size value = none := by
    intro h
    have hneg : value.toInt < 0 := by
      rw [beq_iff_eq.mp h]
      exact Int.neg_neg_of_pos (Int.pow_pos (by decide))
    rw [tostring, if_neg (by omega), if_pos hneg, if_pos h]
  refine ⟨⟨(tostringUnsigned_eq size value).trans (by rw [str_eq_dec]),
    by rw [str_eq_dec, Client.int_dec]⟩, ?_, ?_⟩
  · constructor
    · rintro ⟨chars, hchars⟩
      by_contra h
      rw [hover (by simpa using h)] at hchars
      cases hchars
    · exact fun h => ⟨_, tostring_eq h⟩
  · intro chars hchars
    cases h : value.negOverflow with
    | true =>
      rw [hover h] at hchars
      cases hchars
    | false =>
      rw [tostring_eq h] at hchars
      obtain rfl := Option.some.inj hchars
      exact ⟨rfl, int_signed _⟩

end Xaprun.Numerals
