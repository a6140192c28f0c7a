import Xaprun.Spec.Requests

/-! Bookkeeping of `scan`: what it passes and what it leaves make up the stream,
and scanning on from where a capped scan stopped is scanning without the cap. -/

namespace Xaprun

open Frames

section Split

variable {α : Type*} {r y a b : List α}

/-- A piece of a list that reaches beyond `a` is `a` and a piece of the rest. -/
theorem split_beyond (h : r ++ y = a ++ b) (hl : a.length ≤ r.length) :
    r = a ++ r.drop a.length ∧ r.drop a.length ++ y = b := by
  have hr : r = a ++ r.drop a.length := by
    have htake : r.take a.length = a := by
      have := congrArg (List.take a.length) h
      rwa [List.take_append_of_le_length hl, List.take_left] at this
    conv_lhs => rw [← List.take_append_drop a.length r, htake]
  refine ⟨hr, ?_⟩
  rw [hr, List.append_assoc] at h
  exact List.append_cancel_left h

theorem split_inside (h : r ++ y = a ++ b) (hl : r.length ≤ a.length) :
    a = r ++ a.drop r.length ∧ y = a.drop r.length ++ b := by
  obtain ⟨h₁, h₂⟩ := split_beyond h.symm hl
  exact ⟨h₁, h₂.symm⟩

end Split

theorem stream_cons (f : Frame) (fs : List Frame) (tail : Bytes) :
    stream (f :: fs) tail = f.bytes ++ stream fs tail := by
  simp [stream]

theorem stream_cons_ws (f : Frame) (fs : List Frame) (tail : Bytes) :
    stream (f :: fs) tail = f.ws ++ (f.head ++ (space :: f.body ++ stream fs tail)) := by
  simp [stream_cons, Frame.bytes, frame, Frame.head]

theorem Frame.bytes_length (f : Frame) :
    f.bytes.length = f.ws.length + f.head.length + 1 + f.body.length := by
  simp only [Frame.bytes, List.length_append, frame_length, Frame.head]; omega

theorem Frame.head_length_le (f : Frame) : f.head.length ≤ MAX_MSG_LEN_LEN :=
  dec_length_le (by decide) f.short

@[simp] theorem Frame.bare_ws (f : Frame) : f.bare.ws = [] := List.drop_length

@[simp] theorem Frame.bare_body (f : Frame) : f.bare.body = f.body := rfl

@[simp] theorem Frame.trim_body (f : Frame) (n : ℕ) : (f.trim n).body = f.body := rfl

theorem Frame.trim_zero (f : Frame) : f.trim 0 = f := rfl

theorem Frame.bare_bare (f : Frame) : f.bare.bare = f.bare := by
  simp [Frame.bare, Frame.trim]

theorem Frame.bare_bytes (f : Frame) : f.bare.bytes = frame f.body := by
  simp [Frame.bytes]

theorem Frame.bare_bytes_length (f : Frame) :
    f.bare.bytes.length = f.bytes.length - f.ws.length := by
  rw [f.bare_bytes, Frame.bytes, List.length_append]; omega

/-- The four ways a scan meets a frame. -/
theorem scan_cases (cap : Bool) (o : ℕ) (f : Frame) (fs : List Frame) (r : Bytes) :
    (r.length ≤ f.ws.length ∧ scan cap o (f :: fs) r = ⟨[], f.trim r.length :: fs, [], false⟩) ∨
    (f.ws.length < r.length ∧ cap = true ∧ MAX_MSG_LEN_LEN < o + f.ws.length + f.head.length ∧
      scan cap o (f :: fs) r = ⟨[], f.bare :: fs, r.drop f.ws.length, true⟩) ∨
    (f.ws.length < r.length ∧ r.length < f.bytes.length ∧
      (cap = true → o + f.ws.length + f.head.length ≤ MAX_MSG_LEN_LEN) ∧
      scan cap o (f :: fs) r = ⟨[], f.bare :: fs, r.drop f.ws.length, false⟩) ∨
    (f.bytes.length ≤ r.length ∧ (cap = true → o + f.ws.length + f.head.length ≤ MAX_MSG_LEN_LEN) ∧
      scan cap o (f :: fs) r =
        { scan cap (o + f.bytes.length) fs (r.drop f.bytes.length) with
          bodies :=
            f.body :: (scan cap (o + f.bytes.length) fs (r.drop f.bytes.length)).bodies }) := by
  by_cases h₁ : r.length ≤ f.ws.length
  · exact Or.inl ⟨h₁, by simp [scan, h₁]⟩
  by_cases h₂ : cap = true ∧ MAX_MSG_LEN_LEN < o + f.ws.length + f.head.length
  · exact Or.inr (Or.inl ⟨by omega, h₂.1, h₂.2, by simp [scan, h₁, h₂]⟩)
  have hfits : cap = true → o + f.ws.length + f.head.length ≤ MAX_MSG_LEN_LEN := fun hc => by
    by_contra hlt; exact h₂ ⟨hc, by omega⟩
  by_cases h₃ : r.length < f.bytes.length
  · exact Or.inr (Or.inr (Or.inl
      ⟨by omega, h₃, hfits, by simp only [scan, h₁, h₂, h₃, if_true, if_false]⟩))
  · exact Or.inr (Or.inr (Or.inr ⟨by omega, hfits, by simp only [scan, h₁, h₂, h₃, if_false]⟩))

/-- The bodies passed and the frames left are those of the stream, and what is left of the
buffer starts what is left of the stream. -/
theorem scan_account (cap : Bool) {tail future : Bytes} :
    ∀ (fs : List Frame) (o : ℕ) (r : Bytes), r ++ future = stream fs tail →
      fs.map Frame.body = (scan cap o fs r).bodies ++ (scan cap o fs r).left.map Frame.body ∧
      ∃ tail', tail' <:+ tail ∧
        (scan cap o fs r).rest ++ future = stream (scan cap o fs r).left tail' := by
  intro fs
  induction fs with
  | nil =>
    intro o r h
    exact ⟨by simp [scan], future, ⟨r, by simpa [stream] using h⟩, by simp [scan, stream]⟩
  | cons f fs ih =>
    intro o r h
    rcases scan_cases cap o f fs r with ⟨hws, he⟩ | ⟨hws, -, -, he⟩ |
      ⟨hws, -, -, he⟩ | ⟨hlen, -, he⟩ <;>
      rw [he]
    · obtain ⟨-, h₂⟩ := split_inside (h.trans (stream_cons_ws f fs tail)) hws
      exact ⟨by simp, tail, List.suffix_refl _, by rw [h₂, stream_cons_ws]; rfl⟩
    · obtain ⟨-, h₂⟩ := split_beyond (h.trans (stream_cons_ws f fs tail)) hws.le
      exact ⟨by simp, tail, List.suffix_refl _, by rw [h₂, stream_cons_ws]; simp [Frame.head]⟩
    · obtain ⟨-, h₂⟩ := split_beyond (h.trans (stream_cons_ws f fs tail)) hws.le
      exact ⟨by simp, tail, List.suffix_refl _, by rw [h₂, stream_cons_ws]; simp [Frame.head]⟩
    · obtain ⟨-, h₂⟩ := split_beyond (h.trans (stream_cons f fs tail)) hlen
      obtain ⟨hb, hrest⟩ := ih (o + f.bytes.length) (r.drop f.bytes.length) h₂
      exact ⟨by simpa using hb, hrest⟩

theorem scan_rest_suffix (cap : Bool) (fs : List Frame) :
    ∀ (o : ℕ) (r : Bytes), (scan cap o fs r).rest <:+ r := by
  induction fs with
  | nil => intro o r; exact List.nil_suffix
  | cons f fs ih =>
    intro o r
    rcases scan_cases cap o f fs r with ⟨-, he⟩ | ⟨-, -, -, he⟩ | ⟨-, -, -, he⟩ |
      ⟨-, -, he⟩ <;> rw [he]
    · exact List.nil_suffix
    · exact List.drop_suffix _ _
    · exact List.drop_suffix _ _
    · exact (ih _ _).trans (List.drop_suffix _ _)

theorem scan_rest_lt (cap : Bool) {o : ℕ} {fs : List Frame} {r : Bytes}
    (h : (scan cap o fs r).bodies ≠ []) : (scan cap o fs r).rest.length < r.length := by
  cases fs with
  | nil => exact absurd rfl h
  | cons f fs =>
    rcases scan_cases cap o f fs r with ⟨-, he⟩ | ⟨-, -, -, he⟩ | ⟨-, -, -, he⟩ | ⟨hlen, -, he⟩ <;>
      rw [he] at h ⊢
    · exact absurd rfl h
    · exact absurd rfl h
    · exact absurd rfl h
    · have hsuf := (scan_rest_suffix cap fs (o + f.bytes.length) (r.drop f.bytes.length)).length_le
      have hpos := f.bytes_length
      simp only [List.length_drop] at hsuf
      simp only
      omega

theorem scan_fresh (cap : Bool) (fs : List Frame) : ∀ (o : ℕ) (r : Bytes),
    (scan cap o fs r).rest = [] ∨
      ∃ f fs', (scan cap o fs r).left = f :: fs' ∧ f.ws = [] := by
  induction fs with
  | nil => intro o r; exact Or.inl rfl
  | cons f fs ih =>
    intro o r
    rcases scan_cases cap o f fs r with ⟨-, he⟩ | ⟨-, -, -, he⟩ | ⟨-, -, -, he⟩ |
      ⟨-, -, he⟩ <;> rw [he]
    · exact Or.inl rfl
    · exact Or.inr ⟨f.bare, fs, rfl, f.bare_ws⟩
    · exact Or.inr ⟨f.bare, fs, rfl, f.bare_ws⟩
    · exact ih _ _

/-- A frame at the front of the buffer is never late: its length has at most nine digits. -/
theorem scan_late_bodies {fs : List Frame} {r : Bytes}
    (hfresh : r = [] ∨ ∃ f fs', fs = f :: fs' ∧ f.ws = []) (h : (scan true 0 fs r).late = true) :
    (scan true 0 fs r).bodies ≠ [] := by
  cases fs with
  | nil => simp [scan] at h
  | cons f fs =>
    rcases scan_cases true 0 f fs r with ⟨-, he⟩ | ⟨hws, -, hlate, he⟩ |
      ⟨-, -, -, he⟩ | ⟨-, -, he⟩ <;>
      rw [he] at h ⊢
    · simp at h
    · exfalso
      rcases hfresh with rfl | ⟨f', fs', hcons, hf⟩
      · simp at hws
      · obtain ⟨rfl, rfl⟩ := List.cons.inj hcons
        have := f.head_length_le
        simp only [hf, List.length_nil] at hlate
        omega
    · simp at h
    · simp

theorem scan_again {fs : List Frame} : ∀ {o : ℕ} {r : Bytes}, (scan true o fs r).late = false →
    (scan true 0 (scan true o fs r).left (scan true o fs r).rest).late = false := by
  induction fs with
  | nil => intros; rfl
  | cons f fs ih =>
    intro o r h
    rcases scan_cases true o f fs r with ⟨-, he⟩ | ⟨-, -, -, he⟩ |
      ⟨hws, hpart, -, he⟩ | ⟨-, -, he⟩ <;>
      rw [he] at h ⊢
    · simp [scan]
    · simp at h
    · have hhead : f.bare.head.length ≤ MAX_MSG_LEN_LEN := f.bare.head_length_le
      have hlen := f.bytes_length
      rcases scan_cases true 0 f.bare fs (r.drop f.ws.length) with
        ⟨-, he'⟩ | ⟨-, -, hlate, -⟩ | ⟨-, -, -, he'⟩ | ⟨hlen', -, -⟩
      · simp only [he']
      · simp only [Frame.bare_ws, List.length_nil] at hlate; omega
      · simp only [he']
      · rw [f.bare_bytes_length, List.length_drop] at hlen'; omega
    · exact ih h

theorem scan_uncapped {fs : List Frame} : ∀ {o o' : ℕ} {r : Bytes} {cap : Bool},
    (scan cap o fs r).late = false → scan false o' fs r = scan cap o fs r := by
  induction fs with
  | nil => intros; rfl
  | cons f fs ih =>
    intro o o' r cap h
    rcases scan_cases cap o f fs r with ⟨hws, he⟩ | ⟨-, -, -, he⟩ |
      ⟨hws, hpart, -, he⟩ | ⟨hlen, -, he⟩ <;>
      rw [he] at h ⊢
    · simp [scan, hws]
    · simp at h
    · simp [scan, hws.not_ge, hpart]
    · have := f.bytes_length
      simp [scan, show ¬ r.length ≤ f.ws.length by omega, hlen.not_gt, ih h]

theorem scan_false_late (fs : List Frame) :
    ∀ (o : ℕ) (r : Bytes), (scan false o fs r).late = false := by
  induction fs with
  | nil => intros; rfl
  | cons f fs ih =>
    intro o r
    rcases scan_cases false o f fs r with ⟨-, he⟩ | ⟨-, hcap, -⟩ | ⟨-, -, -, he⟩ | ⟨-, -, he⟩
    · rw [he]
    · simp at hcap
    · rw [he]
    · rw [he]; exact ih _ _

/-- Scanning on from where a capped scan stopped is scanning without the cap. -/
theorem scan_resume {fs : List Frame} : ∀ {o o' : ℕ} {r : Bytes},
    scan false o' fs r =
      { scan false 0 (scan true o fs r).left (scan true o fs r).rest with
        bodies := (scan true o fs r).bodies ++
          (scan false 0 (scan true o fs r).left (scan true o fs r).rest).bodies } := by
  induction fs with
  | nil => intros; rfl
  | cons f fs ih =>
    intro o o' r
    have hlen := f.bytes_length
    -- scanning the bare frame from its first byte is scanning the frame
    have hbare : f.ws.length < r.length →
        scan false o' (f :: fs) r = scan false 0 (f.bare :: fs) (r.drop f.ws.length) := by
      intro hws
      rcases scan_cases false 0 f.bare fs (r.drop f.ws.length) with
        ⟨h, -⟩ | ⟨-, h, -⟩ | ⟨-, h, -, he⟩ | ⟨h, -, he⟩
      · simp only [List.length_drop, Frame.bare_ws, List.length_nil] at h; omega
      · simp at h
      · rw [f.bare_bytes_length, List.length_drop] at h
        rw [he]
        simp [scan, hws.not_ge, show r.length < f.bytes.length by omega, f.bare_bare]
      · rw [f.bare_bytes_length, List.length_drop] at h
        rw [he]
        have hoff : scan false (o' + f.bytes.length) fs (r.drop f.bytes.length) = _ :=
          scan_uncapped (scan_false_late fs (0 + f.bare.bytes.length) (r.drop f.bytes.length))
        simp [scan, hws.not_ge, show ¬ r.length < f.bytes.length by omega, hoff,
          f.bare_bytes_length,
          show f.ws.length + (f.bytes.length - f.ws.length) = f.bytes.length by omega]
    rcases scan_cases true o f fs r with ⟨hws, he⟩ | ⟨hws, -, -, he⟩ |
      ⟨hws, -, -, he⟩ | ⟨hlen', -, he⟩ <;>
      simp only [he]
    · simp [scan, hws, Frame.trim_zero]
    · exact hbare hws
    · exact hbare hws
    · rcases scan_cases false o' f fs r with ⟨h, -⟩ | ⟨-, h, -⟩ | ⟨-, h, -⟩ | ⟨-, -, he'⟩
      · omega
      · simp at h
      · omega
      · rw [he', ih (o := o + f.bytes.length)]
        rfl

end Xaprun
