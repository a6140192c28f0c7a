import Xaprun.Lib.Frames

/-! Byte strings as the sources use them: the character classes of the C locale,
the searches of `std::string` and the number formatting of `ext/str.cc`. A search
answers `none` where the source gets `npos`. -/

namespace Xaprun

open Frames

/-- The byte of an ASCII character of the sources. -/
def byte (c : Char) : UInt8 := UInt8.ofNat c.toNat

/-- The bytes of an ASCII literal of the sources. -/
def text (s : String) : Bytes := s.toList.map byte

def cr : UInt8 := 13
def lf : UInt8 := 10
def slash : UInt8 := byte '/'

/-- `isspace` in the C locale: the blank and the five control characters from tab to CR. -/
def isspace (b : UInt8) : Bool :=
  decide (b = space) || (decide (9 ≤ b.toNat) && decide (b.toNat ≤ 13))

def iscrlf (b : UInt8) : Bool := decide (b = lf) || decide (b = cr)

/-- `buf.find_first_of` and `buf.find` from `pos` on. -/
def findFrom (p : UInt8 → Bool) (buf : Bytes) (pos : ℕ) : Option ℕ :=
  ((buf.drop pos).findIdx? p).map (pos + ·)

def substr (buf : Bytes) (pos n : ℕ) : Bytes := (buf.drop pos).take n

def startswith (s pre : Bytes) : Bool := pre.isPrefixOf s

/-- The `do … while (value)` loop of `tostring_unsigned`, which fills its buffer from the end.
Every round divides `value` by ten, so `value` rounds are enough. -/
def pushDigits : ℕ → ℕ → Bytes → Bytes
  | 0, _, acc => acc
  | fuel + 1, value, acc =>
    let acc := digitByte (value % 10) :: acc
    if value / 10 = 0 then acc else pushDigits fuel (value / 10) acc

/-- `str` of an unsigned number. -/
def str (value : ℕ) : Bytes :=
  if value < 10 then [digitByte value] else pushDigits value value []

theorem dec_succ_digit {n : ℕ} (h : 10 ≤ n) : dec n = dec (n / 10) ++ [digitByte (n % 10)] := by
  have h0 : n ≠ 0 := by omega
  have h1 : n / 10 ≠ 0 := by omega
  simp only [dec, h0, h1, if_false]
  rw [Nat.digits_def' (by omega) (by omega)]
  simp

theorem dec_one_digit {n : ℕ} (h : n < 10) : dec n = [digitByte n] := by
  interval_cases n <;> rfl

theorem pushDigits_eq (fuel : ℕ) : ∀ (n : ℕ) (acc : Bytes), 0 < n → n ≤ fuel →
    pushDigits fuel n acc = dec n ++ acc := by
  induction fuel with
  | zero => intro n acc h0 h; omega
  | succ fuel ih =>
    intro n acc h0 h
    unfold pushDigits
    by_cases hlt : n < 10
    · rw [if_pos (Nat.div_eq_of_lt hlt), Nat.mod_eq_of_lt hlt, dec_one_digit hlt]
      rfl
    · rw [if_neg (by omega), ih _ _ (by omega) (by omega), dec_succ_digit (n := n) (by omega)]
      simp

theorem str_eq_dec (n : ℕ) : str n = dec n := by
  unfold str
  split_ifs with h
  · exact (dec_one_digit h).symm
  · rw [pushDigits_eq n n [] (by omega) le_rfl, List.append_nil]

theorem isspace_space : isspace space = true := rfl

theorem isspace_of_iscrlf {b : UInt8} (h : iscrlf b = true) : isspace b = true := by
  unfold iscrlf at h
  simp only [Bool.or_eq_true, decide_eq_true_eq] at h
  rcases h with rfl | rfl <;> rfl

theorem not_isspace_of_isdigit {b : UInt8} (h : isdigit b = true) : isspace b = false := by
  unfold isdigit at h
  simp only [Bool.and_eq_true, decide_eq_true_eq] at h
  unfold isspace
  have hne : b ≠ space := fun he => by subst he; exact absurd h.1 (by decide)
  simp only [hne, decide_false, Bool.false_or, Bool.and_eq_false_iff, decide_eq_false_iff_not]
  omega

end Xaprun
