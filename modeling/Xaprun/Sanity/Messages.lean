import Xaprun.Spec.Requests

/-! Message bodies: `build_message` reads back the parts that a body is made of,
whatever surrounds the body in the buffer. And what becomes of the messages: those that
the dispatcher hands to the pool are from the connection it has read, for a group that
`get_worker` knows. -/

namespace Xaprun

open Frames

/-- A body as a client writes it: id, target and payload with single spaces between. -/
def Message.body (m : Message) : Bytes := m.msgid ++ space :: (m.target ++ space :: m.payload)

/-- The message `route_message` builds from a call of the framing loop. -/
def Call.built : Call → Option (Except Bytes Message)
  | .routeMessage c buf pos msglen => some (buildMessage c buf pos msglen)
  | .sendFatalError _ _ => none

theorem findFrom_space {buf a r : Bytes} {pos : ℕ} (h : buf.drop pos = a ++ space :: r)
    (ha : space ∉ a) : findFrom (fun b => decide (b = space)) buf pos = some (pos + a.length) := by
  simp [findFrom, h, findIdx?_space ha]

theorem buildMessage_body {c : ℤ} {buf msgid target payload : Bytes} {pos msglen : ℕ}
    (h : substr buf pos msglen = msgid ++ space :: (target ++ space :: payload))
    (hid : space ∉ msgid) (htarget : space ∉ target) :
    buildMessage c buf pos msglen = .ok ⟨c, msgid, target, payload⟩ := by
  obtain ⟨more, hmore⟩ : ∃ more, buf.drop pos = msgid ++ space ::
      (target ++ space :: (payload ++ more)) := by
    refine ⟨(buf.drop pos).drop msglen, ?_⟩
    unfold substr at h
    calc buf.drop pos = (buf.drop pos).take msglen ++ (buf.drop pos).drop msglen :=
          (List.take_append_drop _ _).symm
      _ = _ := by rw [h]; simp
  have hlen : msgid.length + 1 + target.length + 1 + payload.length ≤ msglen := by
    have := congrArg List.length h
    simp only [substr, List.length_take, List.length_append, List.length_cons] at this
    omega
  have hi := findFrom_space hmore hid
  have hdrop : buf.drop (pos + msgid.length + 1) = target ++ space :: (payload ++ more) := by
    rw [Nat.add_assoc, ← List.drop_drop, hmore, ← List.drop_drop, List.drop_left]
    rfl
  have hj := findFrom_space hdrop htarget
  have hid' : substr buf pos (pos + msgid.length - pos) = msgid := by
    rw [substr, hmore, Nat.add_sub_cancel_left, List.take_left]
  have htarget' : substr buf (pos + msgid.length + 1) (pos + msgid.length + 1 + target.length -
      (pos + msgid.length + 1)) = target := by
    rw [substr, hdrop, Nat.add_sub_cancel_left, List.take_left]
  have hpayload' : substr buf (pos + msgid.length + 1 + target.length + 1)
      (pos + msglen - (pos + msgid.length + 1 + target.length + 1)) = payload := by
    have hsplit : (substr buf pos msglen).drop (msgid.length + 1 + target.length + 1) =
        payload := by
      rw [h, show msgid ++ space :: (target ++ space :: payload) =
        (msgid ++ [space] ++ target ++ [space]) ++ payload by simp]
      exact List.drop_left' (by simp only [List.length_append, List.length_singleton])
    rw [substr, List.drop_take, List.drop_drop] at hsplit
    rw [substr, ← hsplit]
    congr 1
    · omega
    · congr 1; omega
  simp only [buildMessage, hi, hj, hid', htarget', hpayload']
  rw [if_neg (by omega), if_neg (by omega)]

/-! Routing. -/

def Effect.Deliverable (connectionNum : ℤ) : Effect → Prop
  | .sendResponse .. => True
  | .sendToWorker group msg => (getWorker group).isSome ∧ msg.connectionNum = connectionNum

theorem getWorker_indexer (db : Bytes) : (getWorker (text "indexer_" ++ db)).isSome := by
  have hpre : startswith (text "indexer_" ++ db) (text "indexer") = true := by
    rw [startswith, List.isPrefixOf_iff_prefix]
    exact ⟨text "_" ++ db, rfl⟩
  unfold getWorker
  rw [if_pos hpre]
  split_ifs <;> rfl

theorem buildMessage_connectionNum {c : ℤ} {buf : Bytes} {pos msglen : ℕ} {msg : Message}
    (h : buildMessage c buf pos msglen = .ok msg) : msg.connectionNum = c := by
  unfold buildMessage at h
  dsimp only at h
  split at h
  · cases h
  · split_ifs at h
    split at h
    · cases h
    · split_ifs at h
      cases h
      rfl

theorem space_notMem_msgid {c : ℤ} {buf : Bytes} {pos msglen : ℕ} {msg : Message}
    (h : buildMessage c buf pos msglen = .ok msg) : space ∉ msg.msgid := by
  unfold buildMessage at h
  dsimp only at h
  split at h
  · cases h
  · rename_i i hi
    split_ifs at h
    split at h
    · cases h
    · split_ifs at h
      cases h
      obtain ⟨k, hk, rfl⟩ := Option.map_eq_some_iff.mp hi
      obtain ⟨hlen, -, hbefore⟩ := List.findIdx?_eq_some_iff_getElem.mp hk
      intro hmem
      obtain ⟨l, hl, heq⟩ := List.mem_take_iff_getElem.mp hmem
      have hlt : l < k := by omega
      exact hbefore l hlt (decide_eq_true heq)

/-- What goes to a worker is the message that has been built, for the group of its method. -/
theorem sendToWorker_of_routeMessage {write : Writer} {c : ℤ} {buf group : Bytes} {pos msglen : ℕ}
    {msg : Message}
    (h : routeMessage write c buf pos msglen = .sendToWorker group msg) :
    buildMessage c buf pos msglen = .ok msg ∧
      (group = text "search" ∨ ∃ db, group = text "indexer_" ++ db) := by
  unfold routeMessage at h
  split at h
  · cases h
  · rename_i built hbuilt
    rw [hbuilt]
    split at h
    · cases h
    · dsimp only at h
      split_ifs at h
      · -- GET
        split at h
        · split_ifs at h
          cases h
          exact ⟨rfl, .inl rfl⟩
        · cases h
      · -- PUT
        split at h
        · split_ifs at h
          cases h
          exact ⟨rfl, .inr ⟨_, rfl⟩⟩
        · cases h

theorem deliverable_routeMessage (write : Writer) (c : ℤ) (buf : Bytes) (pos msglen : ℕ) :
    (routeMessage write c buf pos msglen).Deliverable c := by
  cases he : routeMessage write c buf pos msglen with
  | sendResponse => trivial
  | sendToWorker group msg =>
    obtain ⟨hbuilt, hgroup⟩ := sendToWorker_of_routeMessage he
    refine ⟨?_, buildMessage_connectionNum hbuilt⟩
    rcases hgroup with rfl | ⟨db, rfl⟩
    · rfl
    · exact getWorker_indexer db

def Call.For (connectionNum : ℤ) : Call → Prop
  | .routeMessage c _ _ _ | .sendFatalError c _ => c = connectionNum

theorem dispatchLoop_for (c : ℤ) (buf : Bytes) (fuel pos : ℕ) (found : Bool) :
    ∀ call ∈ (dispatchLoop c buf fuel pos found).calls, call.For c := by
  induction fuel generalizing pos found with
  | zero => simp [dispatchLoop]
  | succ fuel ih =>
    unfold dispatchLoop
    dsimp only
    split
    · simp
    · split_ifs
      · split
        · exact List.forall_mem_cons.mpr ⟨rfl, ih _ _⟩
        · simp
      · simp
      · exact List.forall_mem_cons.mpr ⟨rfl, ih _ _⟩

theorem dispatchAll_for (c : ℤ) (fuel : ℕ) (buf : Bytes) :
    ∀ call ∈ (dispatchAll c fuel buf).1, call.For c := by
  induction fuel generalizing buf with
  | zero => simp [dispatchAll]
  | succ fuel ih =>
    have hfirst : ∀ call ∈ (dispatchRequest c buf).1, call.For c := dispatchLoop_for c buf _ _ _
    unfold dispatchAll
    dsimp only
    split_ifs
    · exact List.forall_mem_append.mpr ⟨hfirst, ih _⟩
    · exact hfirst

theorem deliverable_effect (write : Writer) {c : ℤ} {call : Call} (h : call.For c) :
    (call.effect write).Deliverable c := by
  cases call with
  | routeMessage c' buf pos msglen =>
    obtain rfl : c' = c := h
    exact deliverable_routeMessage write c' buf pos msglen
  | sendFatalError => trivial

/-- What the dispatcher hands over after a read can be given to a worker. -/
theorem deliverable_of_read (write : Writer) (c : ℤ) (readBuf chunk : Bytes) :
    ∀ e ∈ (readChunk c readBuf chunk).1.map (Call.effect write), e.Deliverable c := by
  refine List.forall_mem_map.mpr fun call hcall => ?_
  exact deliverable_effect write (dispatchAll_for c _ _ call hcall)

end Xaprun
