import Xaprun.Sanity.Messages

/-! The grammar of message bodies. `build_message` wants two spaces and takes an empty id, so it
follows the documented grammar on the bodies without a space, on those whose only space is the
first byte, and on those with two spaces or more of which none is the first byte. -/

namespace Xaprun

open Frames

theorem append_space_inj {as as' bs bs' : Bytes} (h : as ++ space :: bs = as' ++ space :: bs')
    (ha : space ∉ as)
    (ha' : space ∉ as') : as = as' ∧ bs = bs' := by
  have hlen : as.length = as'.length := by
    have := findIdx?_space ha bs
    rw [h, findIdx?_space ha' bs'] at this
    exact (Option.some.inj this).symm
  obtain ⟨has, hbs⟩ := List.append_inj h hlen
  exact ⟨has, (List.cons.inj hbs).2⟩

theorem body_cases (body : Bytes) :
    space ∉ body ∨ (∃ msgid target, body = msgid ++ space :: target ∧ space ∉ msgid ∧
      space ∉ target) ∨
      ∃ msgid target payload, body = msgid ++ space :: (target ++ space :: payload) ∧
        space ∉ msgid ∧ space ∉ target := by
  by_cases hbody : space ∈ body
  · obtain ⟨msgid, rest, rfl, hid⟩ := List.eq_append_cons_of_mem hbody
    by_cases hrest : space ∈ rest
    · obtain ⟨target, payload, rfl, htarget⟩ := List.eq_append_cons_of_mem hrest
      exact .inr (.inr ⟨msgid, target, payload, rfl, hid, htarget⟩)
    · exact .inr (.inl ⟨msgid, rest, rfl, hid, hrest⟩)
  · exact .inl hbody

theorem findFrom_beyond {buf : Bytes} {pos n i : ℕ} (h : space ∉ substr buf pos n)
    (hi : findFrom (fun b => decide (b = space)) buf pos = some i) : pos + n ≤ i := by
  obtain ⟨k, hk, rfl⟩ := Option.map_eq_some_iff.mp hi
  obtain ⟨hlen, hspace, -⟩ := List.findIdx?_eq_some_iff_getElem.mp hk
  by_contra hlt
  apply h
  rw [← of_decide_eq_true hspace]
  exact List.mem_take_iff_getElem.mpr ⟨k, by omega, rfl⟩

section Build

variable {c : ℤ} {buf : Bytes} {pos msglen : ℕ}

theorem buildMessage_no_space (h : space ∉ substr buf pos msglen) :
    buildMessage c buf pos msglen = .error (text "Invalid message") := by
  unfold buildMessage
  cases hi : findFrom (fun b => decide (b = space)) buf pos with
  | none => rfl
  | some i =>
    dsimp only
    rw [if_pos (findFrom_beyond h hi)]

theorem buildMessage_one_space {msgid target : Bytes}
    (h : substr buf pos msglen = msgid ++ space :: target)
    (hid : space ∉ msgid) (htarget : space ∉ target) :
    buildMessage c buf pos msglen = .error (text "Invalid message") := by
  have hlen : msgid.length + 1 ≤ msglen := by
    have := congrArg List.length h
    simp only [substr, List.length_take, List.length_append, List.length_cons] at this
    omega
  have hdrop : buf.drop pos = msgid ++ space :: (target ++ (buf.drop pos).drop msglen) := by
    rw [← List.cons_append, ← List.append_assoc, ← h]
    exact (List.take_append_drop _ _).symm
  have hrest : substr buf (pos + msgid.length + 1) (msglen - (msgid.length + 1)) = target := by
    have hcut : (substr buf pos msglen).drop (msgid.length + 1) = target := by
      rw [h, ← List.drop_drop, List.drop_left]
      rfl
    rwa [substr, List.drop_take, List.drop_drop, ← Nat.add_assoc] at hcut
  unfold buildMessage
  rw [findFrom_space hdrop hid]
  dsimp only
  rw [if_neg (by omega)]
  cases hj : findFrom (fun b => decide (b = space)) buf (pos + msgid.length + 1) with
  | none => rfl
  | some j =>
    have hbeyond := findFrom_beyond (hrest.symm ▸ htarget) hj
    dsimp only
    rw [if_pos (by omega)]

theorem buildMessage_congr {buf' : Bytes} {pos' : ℕ}
    (h : substr buf' pos' msglen = substr buf pos msglen) :
    buildMessage c buf' pos' msglen = buildMessage c buf pos msglen := by
  rcases body_cases (substr buf pos msglen) with hb | ⟨msgid, target, hb, hid, htarget⟩ |
    ⟨msgid, target, payload, hb, hid, htarget⟩
  · rw [buildMessage_no_space hb, buildMessage_no_space (h ▸ hb)]
  · rw [buildMessage_one_space hb hid htarget, buildMessage_one_space (h.trans hb) hid htarget]
  · rw [buildMessage_body hb hid htarget, buildMessage_body (h.trans hb) hid htarget]

theorem buildMessage_error {payload : Bytes} (h : buildMessage c buf pos msglen = .error payload) :
    payload = text "Invalid message" := by
  rcases body_cases (substr buf pos msglen) with hb | ⟨msgid, target, hb, hid, htarget⟩ |
    ⟨msgid, target, payload', hb, hid, htarget⟩
  · rw [buildMessage_no_space hb] at h
    exact (Except.error.inj h).symm
  · rw [buildMessage_one_space hb hid htarget] at h
    exact (Except.error.inj h).symm
  · rw [buildMessage_body hb hid htarget] at h
    cases h

theorem parsedAsDocumented_iff_parts :
    ParsedAsDocumented c buf pos msglen ↔
      ∀ msg, buildMessage c buf pos msglen = .ok msg ↔
        msg.connectionNum = c ∧ Documented
          (substr buf pos msglen) msg.msgid msg.target msg.payload := by
  refine ⟨fun h => h.parts,
    fun h => ⟨h, fun payload herror => ⟨buildMessage_error herror, fun write => ?_⟩,
    fun _ _ _ hsame => buildMessage_congr hsame⟩⟩
  rw [routeMessage, herror]

theorem Documented.msgid_eq {msgid rest msgid' target' payload' : Bytes}
    (h : Documented (msgid ++ space :: rest) msgid' target' payload') (hid : space ∉ msgid) :
    msgid' = msgid ∧ msgid ≠ [] ∧
      (target' = rest ∧ payload' = [] ∨ rest = target' ++ space :: payload') := by
  obtain ⟨hne, hid', -, ⟨hbody, rfl⟩ | hbody⟩ := h
  · obtain ⟨rfl, rfl⟩ := append_space_inj hbody hid hid'
    exact ⟨rfl, hne, .inl ⟨rfl, rfl⟩⟩
  · obtain ⟨rfl, rfl⟩ := append_space_inj hbody hid hid'
    exact ⟨rfl, hne, .inr rfl⟩

/-- A message is parsed as documented exactly when its body has no space, or the first byte of it
is a space if and only if that is the only one. -/
theorem bodies_documented_iff (c : ℤ) (buf : Bytes) (pos msglen : ℕ) :
    ParsedAsDocumented c buf pos msglen ↔
      space ∉ substr buf pos msglen ∨
        ((substr buf pos msglen).head? = some space ↔ (substr buf pos msglen).count space = 1) := by
  rw [parsedAsDocumented_iff_parts]
  rcases body_cases (substr buf pos msglen) with hb | ⟨msgid, target, hb, hid, htarget⟩ |
    ⟨msgid, target, payload, hb, hid, htarget⟩
  · refine iff_of_true (fun msg => ?_) (.inl hb)
    rw [buildMessage_no_space hb]
    apply iff_of_false (by simp)
    rintro ⟨-, -, -, -, ⟨heq, -⟩ | heq⟩
    all_goals
      rw [heq] at hb
      simp at hb
  · rw [buildMessage_one_space hb hid htarget, hb]
    have hcount : (msgid ++ space :: target).count space = 1 := by
      simp [List.count_append, List.count_eq_zero_of_not_mem hid,
        List.count_eq_zero_of_not_mem htarget]
    cases msgid with
    | nil =>
      refine iff_of_true (fun msg => iff_of_false (by simp) ?_) (.inr (by rw [hcount]; simp))
      rintro ⟨-, hdoc⟩
      exact (hdoc.msgid_eq hid).2.1 rfl
    | cons b bs =>
      refine iff_of_false (fun h => ?_) ?_
      · have := (h ⟨c, b :: bs, target, []⟩).mpr ⟨rfl, by simp, hid, htarget, .inl ⟨rfl, rfl⟩⟩
        cases this
      · have hne : b ≠ space := fun he => hid (he ▸ List.mem_cons_self)
        rw [hcount]
        simp [hne]
  · rw [buildMessage_body hb hid htarget, hb]
    have hcount : (msgid ++ space :: (target ++ space :: payload)).count space ≠ 1 := by
      simp only [List.count_append, List.count_cons_self]
      omega
    cases msgid with
    | nil =>
      refine iff_of_false (fun h => ?_) (by simp)
      have := ((h ⟨c, [], target, payload⟩).mp rfl).2.1
      exact this rfl
    | cons b bs =>
      have hne : b ≠ space := fun he => hid (he ▸ List.mem_cons_self)
      refine iff_of_true (fun msg => ?_) (.inr (iff_of_false (by simp [hne]) hcount))
      constructor
      · intro h
        cases h
        exact ⟨rfl, by simp, hid, htarget, .inr rfl⟩
      · rintro ⟨hc, hdoc⟩
        obtain ⟨hmsgid, -, ⟨htarget', -⟩ | hrest⟩ := hdoc.msgid_eq hid
        · -- a target without spaces cannot hold the payload
          have := hdoc.2.2.1
          rw [htarget'] at this
          simp at this
        · obtain ⟨htarget', hpayload⟩ := append_space_inj hrest htarget hdoc.2.2.1
          rw [htarget', hpayload, ← hmsgid, ← hc]

end Build

/-- A request without a payload is a documented one, and it is refused. -/
theorem bodies_no_payload :
    ¬ ∀ c buf pos msglen, pos + msglen ≤ buf.length → ParsedAsDocumented c buf pos msglen := by
  intro h
  have hparts := (h 0 (text "1 Gversion") 0 10 (by decide)).parts ⟨0, text "1", text "Gversion", []⟩
  have hdoc : Documented (substr (text "1 Gversion") 0 10) (text "1") (text "Gversion") [] :=
    ⟨by decide, by decide, by decide, .inl ⟨by decide, rfl⟩⟩
  have hbuilt := hparts.mpr ⟨rfl, hdoc⟩
  revert hbuilt
  decide

end Xaprun
