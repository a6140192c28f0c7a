import Xaprun.Lib.Frames

/-! Percent-encoding of byte strings: a byte outside a set of safe ones is written as a percent
sign and two hexadecimal digits. The decoder takes digits in either letter case and leaves what
is no escape as it is. -/

namespace Percent

open Frames

def percent : UInt8 := 37

def hexVal (b : UInt8) : Option ℕ :=
  if isdigit b then some (b.toNat - 48)
  else if 65 ≤ b.toNat ∧ b.toNat ≤ 70 then some (b.toNat - 55)
  else if 97 ≤ b.toNat ∧ b.toNat ≤ 102 then some (b.toNat - 87)
  else none

def upperHex (n : ℕ) : UInt8 := if n < 10 then digitByte n else UInt8.ofNat (55 + n)

def escape (b : UInt8) : Bytes := [percent, upperHex (b.toNat / 16), upperHex (b.toNat % 16)]

def encodeByte (safe : UInt8 → Bool) (b : UInt8) : Bytes := if safe b then [b] else escape b

def encode (safe : UInt8 → Bool) (s : Bytes) : Bytes := s.flatMap (encodeByte safe)

def decode : Bytes → Bytes
  | b :: x :: y :: rest =>
    if b = percent then
      match hexVal x, hexVal y with
      | some h, some l => UInt8.ofNat (16 * h + l) :: decode rest
      | _, _ => b :: decode (x :: y :: rest)
    else b :: decode (x :: y :: rest)
  | bs => bs

def HasEscape (s : Bytes) : Prop :=
  ∃ before x y after, s = before ++ percent :: x :: y :: after ∧ (hexVal x).isSome ∧
    (hexVal y).isSome

theorem hexVal_lt {b : UInt8} {n : ℕ} (h : hexVal b = some n) : n < 16 := by
  unfold hexVal isdigit at h
  split_ifs at h with hd hu hl
  · simp only [Bool.and_eq_true, decide_eq_true_eq] at hd
    cases h
    omega
  · cases h
    omega
  · cases h
    omega

theorem hexVal_upperHex {n : ℕ} (h : n < 16) : hexVal (upperHex n) = some n := by
  interval_cases n <;> rfl

theorem toNat_div_lt (b : UInt8) : b.toNat / 16 < 16 := by
  have := b.toNat_lt
  omega

theorem ofNat_nibbles (b : UInt8) : UInt8.ofNat (16 * (b.toNat / 16) + b.toNat % 16) = b := by
  rw [Nat.div_add_mod, UInt8.ofNat_toNat]

theorem decode_escape (b : UInt8) (rest : Bytes) :
    decode (escape b ++ rest) = b :: decode rest := by
  have hhigh := hexVal_upperHex (toNat_div_lt b)
  have hlow := hexVal_upperHex (Nat.mod_lt b.toNat (show 0 < 16 by omega))
  simp only [escape, List.cons_append, List.nil_append, decode, if_true, hhigh, hlow, ofNat_nibbles]

theorem decode_cons {b : UInt8} (h : b ≠ percent) (rest : Bytes) :
    decode (b :: rest) = b :: decode rest := by
  cases rest with
  | nil => rfl
  | cons x rest =>
    cases rest with
    | nil => rfl
    | cons y rest => rw [decode, if_neg h]

section HasEscape

variable {b : UInt8} {rest : Bytes}

theorem HasEscape.cons (h : HasEscape rest) (b : UInt8) : HasEscape (b :: rest) := by
  obtain ⟨before, x, y, after, rfl, hx, hy⟩ := h
  exact ⟨b :: before, x, y, after, rfl, hx, hy⟩

/-- What the decoder does at the front of a string: it decodes an escape or passes a byte on. -/
theorem decode_cases (b : UInt8) (rest : Bytes) :
    (∃ x y after c, b :: rest = percent :: x :: y :: after ∧ (hexVal x).isSome ∧ (hexVal y).isSome ∧
      decode (b :: rest) = c :: decode after) ∨
    ((HasEscape (b :: rest) → HasEscape rest) ∧ decode (b :: rest) = b :: decode rest) := by
  by_cases hfront : ∃ x y after, b :: rest = percent :: x :: y :: after ∧ (hexVal x).isSome ∧
    (hexVal y).isSome
  · obtain ⟨x, y, after, heq, hx, hy⟩ := hfront
    obtain ⟨h, hh⟩ := Option.isSome_iff_exists.mp hx
    obtain ⟨l, hl⟩ := Option.isSome_iff_exists.mp hy
    refine .inl ⟨x, y, after, UInt8.ofNat (16 * h + l), heq, hx, hy, ?_⟩
    rw [heq, decode, if_pos rfl, hh, hl]
  · refine .inr ⟨?_, ?_⟩
    · rintro ⟨before, x, y, after, heq, hx, hy⟩
      cases before with
      | nil => exact absurd ⟨x, y, after, heq, hx, hy⟩ hfront
      | cons c before =>
        obtain ⟨rfl, rfl⟩ := List.cons.inj heq
        exact ⟨before, x, y, after, rfl, hx, hy⟩
    · by_cases hb : b = percent
      · subst hb
        match rest with
        | [] => rfl
        | [_] => rfl
        | x :: y :: after =>
          rw [decode, if_pos rfl]
          cases hx : hexVal x with
          | none => rfl
          | some h =>
            cases hy : hexVal y with
            | none => rfl
            | some l => exact absurd ⟨x, y, after, rfl, by rw [hx]; rfl, by rw [hy]; rfl⟩ hfront
      · exact decode_cons hb rest

theorem length_decode (s : Bytes) :
    (decode s).length ≤ s.length ∧ (HasEscape s → (decode s).length < s.length) := by
  induction hn : s.length using Nat.strong_induction_on generalizing s with
  | _ n ih =>
    cases s with
    | nil =>
      refine ⟨Nat.zero_le _, ?_⟩
      rintro ⟨before, x, y, after, heq, -, -⟩
      simp at heq
    | cons b rest =>
      rw [List.length_cons] at hn
      rcases decode_cases b rest with ⟨x, y, after, c, heq, -, -, hdecode⟩ | ⟨hescape, hdecode⟩
      · have hlen := congrArg List.length heq
        simp only [List.length_cons] at hlen
        obtain ⟨hle, -⟩ := ih after.length (by omega) after rfl
        rw [hdecode, List.length_cons]
        exact ⟨by omega, fun _ => by omega⟩
      · obtain ⟨hle, hlt⟩ := ih rest.length (by omega) rest rfl
        rw [hdecode, List.length_cons]
        refine ⟨by omega, fun h => ?_⟩
        have := hlt (hescape h)
        omega

theorem decode_eq_self_iff (s : Bytes) : decode s = s ↔ ¬ HasEscape s := by
  constructor
  · intro h hescape
    have := (length_decode s).2 hescape
    rw [h] at this
    omega
  · intro h
    induction s with
    | nil => rfl
    | cons b rest ih =>
      rcases decode_cases b rest with ⟨x, y, after, c, heq, hx, hy, -⟩ | ⟨-, hdecode⟩
      · exact absurd ⟨[], x, y, after, heq, hx, hy⟩ h
      · rw [hdecode, ih fun hrest => h (hrest.cons b)]

end HasEscape

section Encode

variable {safe : UInt8 → Bool}

theorem decode_encode (hsafe : safe percent = false) (s : Bytes) : decode (encode safe s) = s := by
  induction s with
  | nil => rfl
  | cons b s ih =>
    change decode (encodeByte safe b ++ encode safe s) = b :: s
    unfold encodeByte
    split_ifs with hb
    · have hne : b ≠ percent := by
        rintro rfl
        rw [hsafe] at hb
        cases hb
      rw [List.singleton_append, decode_cons hne, ih]
    · rw [decode_escape, ih]

theorem encode_injective (hsafe : safe percent = false) : Function.Injective (encode safe) := by
  intro s t h
  rw [← decode_encode hsafe s, h, decode_encode hsafe t]

theorem length_le_encode (s : Bytes) : s.length ≤ (encode safe s).length := by
  induction s with
  | nil => exact le_rfl
  | cons b s ih =>
    have hb : 1 ≤ (encodeByte safe b).length := by
      unfold encodeByte
      split_ifs <;> simp [escape]
    change s.length + 1 ≤ (encodeByte safe b ++ encode safe s).length
    rw [List.length_append]
    omega

theorem mem_encode {s : Bytes} {b : UInt8} (h : b ∈ encode safe s) :
    safe b = true ∨ b = percent ∨ ∃ n < 16, b = upperHex n := by
  obtain ⟨c, -, hc⟩ := List.mem_flatMap.mp h
  unfold encodeByte at hc
  split_ifs at hc with hsafe
  · rw [List.mem_singleton.mp hc]
    exact .inl hsafe
  · simp only [escape, List.mem_cons, List.not_mem_nil, or_false] at hc
    rcases hc with rfl | rfl | rfl
    · exact .inr (.inl rfl)
    · exact .inr (.inr ⟨_, toNat_div_lt c, rfl⟩)
    · exact .inr (.inr ⟨_, Nat.mod_lt _ (by omega), rfl⟩)

end Encode

end Percent
