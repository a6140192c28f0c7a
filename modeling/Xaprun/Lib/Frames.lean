import Mathlib.Data.Nat.Digits.Lemmas
import Mathlib.Data.List.TakeWhile

/-! Byte strings, decimal numerals and length-prefixed frames: a frame is the
decimal length of a body, one space and the body. The reader takes frames off the
front of a byte string for as long as it can. -/

namespace Frames

abbrev Bytes := List UInt8

def space : UInt8 := 32

/-- `isdigit` in the C locale. -/
def isdigit (b : UInt8) : Bool := decide (48 ≤ b.toNat) && decide (b.toNat ≤ 57)

def digitByte (d : ℕ) : UInt8 := UInt8.ofNat (48 + d)

def digitVal (b : UInt8) : ℕ := b.toNat - 48

/-- The ordinary decimal numeral, without sign or leading zeros. -/
def dec (n : ℕ) : Bytes :=
  if n = 0 then [digitByte 0] else (Nat.digits 10 n).reverse.map digitByte

def value (ds : Bytes) : ℕ := ds.foldl (fun n b => n * 10 + digitVal b) 0

theorem isdigit_digitByte {d : ℕ} (h : d < 10) : isdigit (digitByte d) = true := by
  interval_cases d <;> rfl

theorem digitVal_digitByte {d : ℕ} (h : d < 10) : digitVal (digitByte d) = d := by
  interval_cases d <;> rfl

theorem dec_isdigit {n : ℕ} : ∀ b ∈ dec n, isdigit b = true := by
  intro b hb
  unfold dec at hb
  split_ifs at hb
  · rw [List.mem_singleton.mp hb]; exact isdigit_digitByte (by omega)
  · obtain ⟨d, hd, rfl⟩ := List.mem_map.mp hb
    exact isdigit_digitByte (Nat.digits_lt_base (by omega) (List.mem_reverse.mp hd))

theorem dec_ne_nil (n : ℕ) : dec n ≠ [] := by
  unfold dec
  split_ifs with h
  · simp
  · simpa [Nat.digits_ne_nil_iff_ne_zero] using h

theorem dec_length_pos (n : ℕ) : 0 < (dec n).length := List.length_pos_iff.mpr (dec_ne_nil n)

theorem dec_length_le {n k : ℕ} (hk : 0 < k) (h : n < 10 ^ k) : (dec n).length ≤ k := by
  unfold dec
  split_ifs
  · exact hk
  · simpa using (Nat.digits_length_le_iff (by omega) n).mpr h

theorem foldl_digits (ds : List ℕ) (hd : ∀ d ∈ ds, d < 10) :
    (ds.reverse.map digitByte).foldl (fun n b => n * 10 + digitVal b) 0 = Nat.ofDigits 10 ds := by
  induction ds with
  | nil => rfl
  | cons d ds ih =>
    have hrest := ih fun e he => hd e (by simp [he])
    simp only [List.reverse_cons, List.map_append, List.foldl_append, hrest, List.map_cons,
      List.map_nil, List.foldl_cons, List.foldl_nil, digitVal_digitByte (hd d (by simp)),
      Nat.ofDigits_cons]
    ring

theorem value_dec (n : ℕ) : value (dec n) = n := by
  unfold value dec
  split_ifs with h
  · subst h; rfl
  · rw [foldl_digits _ fun d hd => Nat.digits_lt_base (by omega) hd, Nat.ofDigits_digits]

theorem dec_injective : Function.Injective dec := fun m n h => by
  rw [← value_dec m, h, value_dec]

theorem takeWhile_digits {ds : Bytes} {b : UInt8} (hds : ∀ d ∈ ds, isdigit d = true)
    (hb : isdigit b = false) (rest : Bytes) : (ds ++ b :: rest).takeWhile isdigit = ds := by
  rw [List.takeWhile_append_of_pos hds, List.takeWhile_cons]
  simp [hb]

def frame (body : Bytes) : Bytes := dec body.length ++ space :: body

theorem frame_append (body extra : Bytes) :
    frame body ++ extra = dec body.length ++ space :: (body ++ extra) := by
  rw [frame, List.append_assoc, List.cons_append]

theorem frame_length (body : Bytes) :
    (frame body).length = (dec body.length).length + 1 + body.length := by
  simp [frame]; omega

/-! The space that ends a field. -/

theorem findIdx?_space_none {as : Bytes} (h : space ∉ as) : as.findIdx? (· = space) = none := by
  rw [List.findIdx?_eq_none_iff]
  intro b hb
  simpa using fun he : b = space => h (he ▸ hb)

theorem findIdx?_space {as : Bytes} (h : space ∉ as) (bs : Bytes) :
    (as ++ space :: bs).findIdx? (· = space) = some as.length := by
  rw [List.findIdx?_append, findIdx?_space_none h, List.findIdx?_cons]
  simp

theorem append_cons_inj {α : Type*} {a : α} {as as' bs bs' : List α}
    (h : as ++ a :: bs = as' ++ a :: bs')
    (ha : a ∉ as) (ha' : a ∉ as') : as = as' ∧ bs = bs' := by
  induction as generalizing as' with
  | nil =>
    rcases as' with - | ⟨b, as'⟩
    · exact ⟨rfl, (List.cons.inj h).2⟩
    · exact absurd (by simp [(List.cons.inj h).1]) ha'
  | cons b as ih =>
    rcases as' with - | ⟨b', as'⟩
    · exact absurd (by simp [(List.cons.inj h).1]) ha
    · obtain ⟨rfl, hrest⟩ := List.cons.inj h
      obtain ⟨rfl, rfl⟩ := ih hrest (List.not_mem_of_not_mem_cons ha)
        (List.not_mem_of_not_mem_cons ha')
      exact ⟨rfl, rfl⟩

theorem space_notMem_dec (n : ℕ) :
    space ∉ dec n := fun h => absurd (dec_isdigit space h) (by decide)

theorem dropWhile_space_dec (n : ℕ) (bs : Bytes) :
    (dec n ++ bs).dropWhile (· = space) = dec n ++ bs := by
  obtain ⟨b, ds, hb⟩ := List.exists_cons_of_ne_nil (dec_ne_nil n)
  have hdigit : b ≠ space := by
    rintro rfl
    apply space_notMem_dec n
    rw [hb]
    exact List.mem_cons_self
  rw [hb, List.cons_append, List.dropWhile_cons_of_neg (by simpa using hdigit)]

/-- Read one frame: digits, a space, and as many bytes as the digits say. -/
def readFrame (bs : Bytes) : Option (Bytes × Bytes) :=
  let ds := bs.takeWhile isdigit
  match bs.drop ds.length with
  | [] => none
  | b :: rest =>
    if ds = [] ∨ b ≠ space ∨ rest.length < value ds then none
    else some (rest.take (value ds), rest.drop (value ds))

/-- Read frames until none can be read, at most `n` of them. -/
def readFrames : ℕ → Bytes → List Bytes × Bytes
  | 0, bs => ([], bs)
  | n + 1, bs =>
    match readFrame bs with
    | none => ([], bs)
    | some (body, rest) => (body :: (readFrames n rest).1, (readFrames n rest).2)

/-- What the reader makes of a numeral, a space and arbitrary further bytes. -/
theorem readFrame_dec (n : ℕ) (rest : Bytes) :
    readFrame (dec n ++ space :: rest) =
      if rest.length < n then none else some (rest.take n, rest.drop n) := by
  have hds : (dec n ++ space :: rest).takeWhile isdigit = dec n :=
    takeWhile_digits dec_isdigit (by decide) rest
  unfold readFrame
  simp only [hds, List.drop_left, value_dec, dec_ne_nil, false_or, ne_eq, not_true_eq_false]

end Frames
