import Xaprun.Spec.Responses

/-! Responses as self-delimiting frames. The two responses to a message measure the
string they send; the fatal error measures its message before that is wrapped in
JSON, and puts every later response on the connection out of step. -/

namespace Xaprun

open Frames

variable (write : Writer)

def Response.announced (write : Writer) : Response → ℕ
  | .fatal payload => payload.length + 1
  | r => (r.body write).length

theorem Response.bytes_eq (r : Response) :
    r.bytes write = dec (r.announced write) ++ space :: r.body write := by
  cases r with
  | msg msgid status payload =>
    simp only [Response.bytes, sendMsgResponse, str_eq_dec, Response.announced, Response.body]
    simp [text, byte, space, Nat.add_assoc]
  | error m payload =>
    simp only [Response.bytes, sendErrorResponse, sendMsgResponse, str_eq_dec, Response.announced,
      Response.body]
    simp [text, byte, space, Nat.add_assoc]
  | fatal payload =>
    simp only [Response.bytes, sendFatalError, str_eq_dec, Response.announced, Response.body]
    simp [text, byte, space]

theorem Response.fits_iff (r : Response) :
    r.Fits write ↔ r.announced write = (r.body write).length := by
  cases r with
  | msg msgid status payload => simp [Response.Fits, Response.announced]
  | error m payload => simp [Response.Fits, Response.announced]
  | fatal payload => simp [Response.Fits, Response.announced, Response.body, eq_comm]

theorem Response.frame_iff (r : Response) :
    (∃ body, r.bytes write = frame body) ↔ r.Fits write := by
  rw [r.fits_iff, r.bytes_eq]
  constructor
  · rintro ⟨body, h⟩
    have hfield : dec (r.announced write) = dec body.length := by
      have := congrArg (List.takeWhile isdigit) h
      rwa [takeWhile_digits dec_isdigit (by decide), frame,
        takeWhile_digits dec_isdigit (by decide)] at this
    rw [frame, hfield, List.append_cancel_left_eq, List.cons.injEq] at h
    rw [h.2]
    exact dec_injective hfield
  · intro h
    exact ⟨r.body write, by rw [frame, h]⟩

theorem writeBuf_cons (r : Response) (rs : List Response) :
    writeBuf write (r :: rs) =
      dec (r.announced write) ++ space :: (r.body write ++ writeBuf write rs) := by
  simp [writeBuf, r.bytes_eq]

theorem length_le_writeBuf (rs : List Response) : rs.length ≤ (writeBuf write rs).length := by
  induction rs with
  | nil => exact Nat.zero_le _
  | cons r rs ih =>
    rw [writeBuf_cons]
    simp only [List.length_cons, List.length_append]
    omega

/-- Reading back a buffer of responses: one frame at a time, a response that does not fit
gives a body of the wrong length. -/
theorem readFrames_writeBuf (rs : List Response) : ∀ fuel, rs.length ≤ fuel →
    (readFrames fuel (writeBuf write rs) = (rs.map (Response.body write), []) ↔
      ∀ r ∈ rs, r.Fits write) := by
  induction rs with
  | nil =>
    intro fuel _
    cases fuel <;> simp [writeBuf, readFrames, readFrame]
  | cons r rs ih =>
    intro fuel hfuel
    obtain ⟨fuel, rfl⟩ : ∃ k, fuel = k + 1 :=
      ⟨fuel - 1, by simp only [List.length_cons] at hfuel; omega⟩
    have hrs := ih fuel (by simp only [List.length_cons] at hfuel; omega)
    rw [writeBuf_cons, List.forall_mem_cons, r.fits_iff]
    simp only [readFrames, readFrame_dec, List.map_cons]
    by_cases hshort : (r.body write ++ writeBuf write rs).length < r.announced write
    · rw [if_pos hshort]
      refine iff_of_false (by simp) fun h => ?_
      rw [h.1, List.length_append] at hshort
      omega
    · rw [if_neg hshort]
      simp only [Prod.mk.injEq, List.cons.injEq]
      constructor
      · rintro ⟨⟨hbody, hbodies⟩, hrest⟩
        -- a body of the right length is one whose length was announced
        have hlen : r.announced write = (r.body write).length := by
          have := congrArg List.length hbody
          rw [List.length_take] at this
          omega
        rw [hlen, List.drop_left] at hbodies hrest
        exact ⟨hlen, hrs.mp (Prod.ext hbodies hrest)⟩
      · rintro ⟨hlen, hfit⟩
        have := hrs.mpr hfit
        rw [hlen, List.take_left, List.drop_left, this]
        exact ⟨⟨rfl, rfl⟩, rfl⟩

/-- Every response of a sequence is a frame, and a reader of the buffer recovers exactly their
bodies and ends in step, if and only if no fatal error among them has a JSON text of another
length than its message. -/
theorem responses_framed_iff (rs : List Response) :
    ((∀ r ∈ rs, ∃ body, r.bytes write = frame body) ∧
      readAll (writeBuf write rs) = (rs.map (Response.body write), [])) ↔
    ∀ r ∈ rs, r.Fits write := by
  have hread := readFrames_writeBuf write rs _ (length_le_writeBuf write rs)
  constructor
  · exact fun h => hread.mp h.2
  · exact fun h => ⟨fun r hr => (r.frame_iff write).mpr (h r hr), hread.mpr h⟩

/-! With the writer that the server has, no fatal error fits: the JSON text of a message is
longer than the message. -/

theorem escapeByte_length (b : UInt8) : 1 ≤ (escapeByte b).length := by
  unfold escapeByte
  split_ifs <;> simp [text]

theorem length_le_flatMap_escapeByte (bs : Bytes) : bs.length ≤ (bs.flatMap escapeByte).length := by
  induction bs with
  | nil => exact le_rfl
  | cons b bs ih =>
    have := escapeByte_length b
    simp only [List.flatMap_cons, List.length_cons, List.length_append]
    omega

theorem fastWriter_longer {payload : Bytes} (h : 0 ∉ payload) (ok : ℤ) :
    payload.length < (fastWriter ⟨ok, payload⟩).length := by
  have hall : payload.takeWhile (· ≠ 0) = payload :=
    List.takeWhile_eq_self_iff.mpr fun b hb => by simpa using fun he : b = 0 => h (he ▸ hb)
  have hquoted : payload.length < (valueToQuotedString payload).length := by
    have := length_le_flatMap_escapeByte payload
    simp only [valueToQuotedString, hall, List.length_cons, List.length_append]
    omega
  simp only [fastWriter, List.length_append]
  omega

theorem fatal_not_fits {payload : Bytes} (h : 0 ∉ payload) :
    ¬ (Response.fatal payload).Fits fastWriter :=
  fun hf => (fastWriter_longer h 0).ne' hf

/-- The fatal error the dispatcher sends, with the text that the JSON writer makes of it,
announces 16 bytes and sends 34. -/
theorem responses_fatal_unframed :
    ¬ ∀ (write : Writer) (rs : List Response),
      (∀ r ∈ rs, ∃ body, r.bytes write = frame body) ∧
        readAll (writeBuf write rs) = (rs.map (Response.body write), []) := by
  intro h
  have hfits := (Response.frame_iff fastWriter (.fatal (text "Invalid message"))).mp
    ((h fastWriter [.fatal (text "Invalid message")]).1 _ (by simp))
  revert hfits
  unfold Response.Fits
  decide

end Xaprun
