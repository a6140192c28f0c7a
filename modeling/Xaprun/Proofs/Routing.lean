import Xaprun.Sanity.Targets

/-! Every frame is routed once. The statements of `route_message` make one call on each way through
it; the groups are read off the first two components of the target. -/

namespace Xaprun

open Frames

/-- Whether a target is in a database, and its components. -/
theorem db_cases (target : Bytes) :
    (∃ rest c₁ cs, target = text "db/" ++ rest ∧ splitTarget rest = c₁ :: cs ∧
      splitTarget target = text "db" :: c₁ :: cs) ∨
    ((∀ rest, target ≠ text "db/" ++ rest) ∧
      ((∃ c₀, splitTarget target = [c₀]) ∨ ∃ c₀ c₁ cs, c₀ ≠ text "db" ∧
        splitTarget target = c₀ :: c₁ :: cs)) := by
  have hdb : ∀ rest, text "db/" ++ rest = text "db" ++ slash :: rest := fun _ => rfl
  rcases target_cases target with ⟨hslash, heq⟩ | ⟨c₀, rest, hc₀, rfl, heq⟩
  · refine .inr ⟨?_, .inl ⟨target, heq⟩⟩
    rintro rest rfl
    rw [hdb] at hslash
    simp at hslash
  · obtain ⟨c₁, cs, hrest⟩ := List.exists_cons_of_ne_nil (splitAtSlashes rest).nonempty
    rw [hrest] at heq
    by_cases hname : c₀ = text "db"
    · rw [hname] at heq ⊢
      exact .inl ⟨rest, c₁, cs, rfl, hrest, heq⟩
    · refine .inr ⟨fun rest' hrest' => ?_, .inr ⟨c₀, c₁, cs, hname, heq⟩⟩
      rw [hdb] at hrest'
      exact hname (append_cons_inj hrest' hc₀ (by decide)).1

theorem calls_of_built (write : Writer) {c : ℤ} {buf : Bytes} {pos msglen : ℕ} {msg : Message}
    (hbuild : buildMessage c buf pos msglen = .ok msg) (hne : msg.target ≠ []) :
    Routing.calls write c buf pos msglen =
      match Id.run ((Routing.switchMethod write c msg (msg.target.getD 0 0) (msg.target.drop 1)
        (splitTarget (msg.target.drop 1))).run []) with
      | (true, es) =>
        es ++ [.sendResponse msg.connectionNum (sendErrorResponse write msg (text "Not found"))]
      | (false, es) => es := by
  unfold Routing.calls Routing.routeMessage Routing.buildMessage Routing.sendErrorResponse
    Routing.call
  rw [hbuild]
  simp only [pure_bind, hne, if_false, StateT.run_bind, Id.run_bind]
  generalize Id.run ((Routing.switchMethod write c msg (msg.target.getD 0 0) (msg.target.drop 1)
    (splitTarget (msg.target.drop 1))).run []) = r
  obtain ⟨broke, es⟩ := r
  cases broke <;> rfl

/-- The statements make the one call that `routeMessage` says. -/
theorem calls_eq (write : Writer) (c : ℤ) (buf : Bytes) (pos msglen : ℕ) :
    Routing.calls write c buf pos msglen = [routeMessage write c buf pos msglen] := by
  cases hbuild : buildMessage c buf pos msglen with
  | error payload =>
    unfold Routing.calls Routing.routeMessage Routing.buildMessage routeMessage
    rw [hbuild]
    rfl
  | ok msg =>
    obtain ⟨n, msgid, target, payload⟩ := msg
    cases target with
    | nil =>
      unfold Routing.calls Routing.routeMessage Routing.buildMessage routeMessage
      rw [hbuild]
      rfl
    | cons method target =>
      have hdrop : (method :: target).drop 1 = target := rfl
      have hget : (method :: target).getD 0 0 = method := rfl
      rw [calls_of_built write hbuild (by simp)]
      unfold routeMessage Routing.switchMethod Routing.sendErrorResponse Routing.call
      rw [hbuild]
      dsimp only
      rw [hdrop, hget]
      rcases db_cases target with ⟨rest, c₁, cs, htarget, -, heq⟩ |
        ⟨-, ⟨c₀, heq⟩ | ⟨c₀, c₁, cs, hc₀, heq⟩⟩
      · have hdb : 2 ≤ (splitTarget target).length ∧
          (splitTarget target).getD 0 [] = text "db" := by simp [heq]
        have hget' : (splitTarget target).getD 1 [] = c₁ := by rw [heq]; rfl
        rw [if_pos hdb, if_pos hdb, hget', heq]
        split_ifs <;> rfl
      · have hdb : ¬ (2 ≤ (splitTarget target).length ∧
          (splitTarget target).getD 0 [] = text "db") := by simp [heq]
        rw [if_neg hdb, if_neg hdb, heq]
        split_ifs <;> rfl
      · have hdb : ¬ (2 ≤ (splitTarget target).length ∧
            (splitTarget target).getD 0 [] = text "db") := by
          simp [heq, hc₀]
        rw [if_neg hdb, if_neg hdb, heq]
        dsimp only
        rw [if_neg hc₀]
        split_ifs <;> rfl

/-! Where a message goes. -/

section Route

variable (write : Writer) {c : ℤ} {buf msgid payload target : Bytes} {pos msglen : ℕ}
  {msg : Message}

/-- An answer under the id of the message. -/
def Answered (write : Writer) (c : ℤ) (buf : Bytes) (pos msglen : ℕ) (msgid : Bytes) : Prop :=
  ∃ status payload, routeMessage write c buf pos msglen = .sendResponse c
    (sendMsgResponse msgid status payload)

theorem route_get (hbuild : buildMessage c buf pos msglen = .ok
    ⟨c, msgid, byte 'G' :: target, payload⟩) :
    (∃ rest, target = text "db/" ++ rest ∧
      routeMessage write c buf pos msglen =
        .sendToWorker (text "search") ⟨c, msgid, byte 'G' :: target, payload⟩) ∨
    ((∀ rest, target ≠ text "db/" ++ rest) ∧ Answered write c buf pos msglen msgid) := by
  unfold Answered routeMessage
  rw [hbuild]
  dsimp only
  rw [if_pos rfl]
  rcases db_cases target with ⟨rest, c₁, cs, htarget, -, heq⟩ |
    ⟨hnone, ⟨c₀, heq⟩ | ⟨c₀, c₁, cs, hc₀, heq⟩⟩
  · have hversion : target ≠ text "version" := by
      rw [htarget]
      intro h
      cases h
    rw [if_neg hversion, heq]
    exact .inl ⟨rest, htarget, if_pos rfl⟩
  · rw [heq]
    refine .inr ⟨hnone, ?_⟩
    split_ifs <;> exact ⟨_, _, rfl⟩
  · rw [heq]
    refine .inr ⟨hnone, ?_⟩
    dsimp only
    rw [if_neg hc₀]
    split_ifs <;> exact ⟨_, _, rfl⟩

theorem route_put (hbuild : buildMessage c buf pos msglen = .ok
    ⟨c, msgid, byte 'U' :: target, payload⟩) :
    (∃ c₁, slash ∉ c₁ ∧ (target = text "db/" ++ c₁ ∨
      ∃ rest, target = text "db/" ++ c₁ ++ slash :: rest) ∧
      routeMessage write c buf pos msglen =
        .sendToWorker (text "indexer_" ++ c₁) ⟨c, msgid, byte 'U' :: target, payload⟩) ∨
    ((∀ rest, target ≠ text "db/" ++ rest) ∧ Answered write c buf pos msglen msgid) := by
  unfold Answered routeMessage
  rw [hbuild]
  dsimp only
  rw [if_neg (by decide), if_neg (by decide), if_pos rfl]
  rcases db_cases target with ⟨rest, c₁, cs, htarget, hrest, heq⟩ |
    ⟨hnone, ⟨c₀, heq⟩ | ⟨c₀, c₁, cs, hc₀, heq⟩⟩
  · have hsplit := splitAtSlashes rest
    rw [hrest] at hsplit
    rw [heq]
    refine .inl ⟨c₁, hsplit.noSlash c₁ List.mem_cons_self, ?_, if_pos rfl⟩
    rcases target_cases rest with ⟨-, heq'⟩ | ⟨a, r, -, rfl, heq'⟩
    · rw [hrest] at heq'
      rw [htarget, (List.cons.inj heq').1]
      exact .inl rfl
    · rw [hrest] at heq'
      rw [htarget, (List.cons.inj heq').1]
      exact .inr ⟨r, rfl⟩
  · rw [heq]
    exact .inr ⟨hnone, _, _, rfl⟩
  · rw [heq]
    dsimp only
    rw [if_neg hc₀]
    exact .inr ⟨hnone, _, _, rfl⟩

theorem route_other (hbuild : buildMessage c buf pos msglen = .ok msg)
    (hget : ∀ target, msg.target ≠ byte 'G' :: target)
    (hput : ∀ target, msg.target ≠ byte 'U' :: target) :
    Answered write c buf pos msglen msg.msgid := by
  have hc := buildMessage_connectionNum hbuild
  unfold Answered routeMessage
  rw [hbuild, ← hc]
  dsimp only
  cases htarget : msg.target with
  | nil => exact ⟨_, _, rfl⟩
  | cons method target =>
    have hG : method ≠ byte 'G' := fun h => hget target (h ▸ htarget)
    have hU : method ≠ byte 'U' := fun h => hput target (h ▸ htarget)
    dsimp only
    rw [if_neg hG, if_neg hU]
    split_ifs <;> exact ⟨_, _, rfl⟩

/-- The ways of a message that could be built: to the searcher, to an indexer, or an answer under
its own id. -/
theorem route_cases (hbuild : buildMessage c buf pos msglen = .ok msg) :
    (∃ rest, msg.target = text "Gdb/" ++ rest ∧
      routeMessage write c buf pos msglen = .sendToWorker (text "search") msg) ∨
    (∃ c₁, slash ∉ c₁ ∧ (msg.target = text "Udb/" ++ c₁ ∨
      ∃ rest, msg.target = text "Udb/" ++ c₁ ++ slash :: rest) ∧
      routeMessage write c buf pos msglen = .sendToWorker (text "indexer_" ++ c₁) msg) ∨
    ((∀ rest, msg.target ≠ text "Gdb/" ++ rest) ∧ (∀ rest, msg.target ≠ text "Udb/" ++ rest) ∧
      Answered write c buf pos msglen msg.msgid) := by
  have hc := buildMessage_connectionNum hbuild
  by_cases hget : ∃ target, msg.target = byte 'G' :: target
  · obtain ⟨n, msgid, _, payload⟩ := msg
    obtain ⟨target, rfl⟩ := hget
    obtain rfl : n = c := hc
    rcases route_get write hbuild with ⟨rest, rfl, hroute⟩ | ⟨hnone, hanswered⟩
    · exact .inl ⟨rest, rfl, hroute⟩
    · refine .inr (.inr ⟨fun rest h => hnone rest (List.cons.inj h).2, fun rest h => ?_, hanswered⟩)
      exact absurd (List.cons.inj h).1 (by decide)
  · by_cases hput : ∃ target, msg.target = byte 'U' :: target
    · obtain ⟨n, msgid, _, payload⟩ := msg
      obtain ⟨target, rfl⟩ := hput
      obtain rfl : n = c := hc
      rcases route_put write hbuild with ⟨c₁, hc₁, htarget, hroute⟩ | ⟨hnone, hanswered⟩
      · refine .inr (.inl ⟨c₁, hc₁, ?_, hroute⟩)
        rcases htarget with rfl | ⟨rest, rfl⟩
        · exact .inl rfl
        · exact .inr ⟨rest, rfl⟩
      · refine .inr (.inr ⟨fun rest h => ?_, fun rest h => hnone rest (List.cons.inj h).2,
          hanswered⟩)
        exact absurd (List.cons.inj h).1 (by decide)
    · have hanswered := route_other write hbuild (not_exists.mp hget) (not_exists.mp hput)
      exact .inr (.inr ⟨fun rest h => hget ⟨_, h⟩, fun rest h => hput ⟨_, h⟩, hanswered⟩)

end Route

theorem search_ne_indexer (c : Bytes) : text "search" ≠ text "indexer_" ++ c := by
  intro h
  cases h

theorem name_inj {c c' : Bytes} (hc : slash ∉ c) (hc' : slash ∉ c') {target : Bytes}
    (h : target = text "Udb/" ++ c ∨ ∃ rest, target = text "Udb/" ++ c ++ slash :: rest)
    (h' : target = text "Udb/" ++ c' ∨ ∃ rest, target = text "Udb/" ++ c' ++ slash :: rest) :
    c = c' := by
  rcases h with rfl | ⟨rest, rfl⟩
  · rcases h' with heq | ⟨rest', heq⟩
    · exact List.append_cancel_left heq
    · rw [List.append_assoc] at heq
      rw [List.append_cancel_left heq] at hc
      simp at hc
  · rw [List.append_assoc] at h'
    rcases h' with heq | ⟨rest', heq⟩
    · rw [← List.append_cancel_left heq] at hc'
      simp at hc'
    · rw [List.append_assoc] at heq
      exact (append_cons_inj (List.append_cancel_left heq) hc hc').1

theorem routedOnce (write : Writer) (c : ℤ) (buf : Bytes) (pos msglen : ℕ) :
    RoutedOnce write c buf pos msglen where
  single := calls_eq write c buf pos msglen
  connection := by
    cases hbuild : buildMessage c buf pos msglen with
    | error payload =>
      rw [routeMessage, hbuild]
      exact .inl ⟨_, rfl⟩
    | ok msg =>
      rcases route_cases write hbuild with ⟨rest, -, hroute⟩ | ⟨c₁, -, -, hroute⟩ |
        ⟨-, -, status, payload, hroute⟩
      · exact .inr ⟨_, msg, hroute, buildMessage_connectionNum hbuild, rfl⟩
      · exact .inr ⟨_, msg, hroute, buildMessage_connectionNum hbuild, rfl⟩
      · exact .inl ⟨_, hroute⟩
  own := fun msg hbuild => by
    rcases route_cases write hbuild with ⟨rest, -, hroute⟩ | ⟨c₁, -, -, hroute⟩ | ⟨-, -, hanswered⟩
    · exact .inr ⟨_, hroute⟩
    · exact .inr ⟨_, hroute⟩
    · exact .inl hanswered
  search := fun msg hbuild => by
    rcases route_cases write hbuild with ⟨rest, htarget, hroute⟩ | ⟨c₁, -, htarget, hroute⟩ |
      ⟨hget, -, _, _, hroute⟩
    · exact iff_of_true hroute ⟨rest, htarget⟩
    · refine iff_of_false (fun h => ?_) ?_
      · rw [hroute] at h
        exact search_ne_indexer c₁ (Effect.sendToWorker.inj h).1.symm
      · rintro ⟨rest, hrest⟩
        rcases htarget with h | ⟨r, h⟩
        · rw [h] at hrest
          cases hrest
        · rw [h] at hrest
          cases hrest
    · refine iff_of_false (fun h => ?_) (fun ⟨rest, h⟩ => hget rest h)
      rw [hroute] at h
      cases h
  indexer := fun msg hbuild c' => by
    rcases route_cases write hbuild with ⟨rest, htarget, hroute⟩ | ⟨c₁, hc₁, htarget, hroute⟩ |
      ⟨-, hput, _, _, hroute⟩
    · refine iff_of_false (fun h => ?_) ?_
      · rw [hroute] at h
        exact search_ne_indexer c' (Effect.sendToWorker.inj h).1
      · rintro ⟨-, h | ⟨r, h⟩⟩
        · rw [h] at htarget
          cases htarget
        · rw [h] at htarget
          cases htarget
    · rw [hroute]
      constructor
      · intro h
        obtain rfl : c₁ = c' := List.append_cancel_left (Effect.sendToWorker.inj h).1
        exact ⟨hc₁, htarget⟩
      · rintro ⟨hc', htarget'⟩
        rw [name_inj hc₁ hc' htarget htarget']
    · refine iff_of_false (fun h => ?_) ?_
      · rw [hroute] at h
        cases h
      · rintro ⟨-, h | ⟨r, h⟩⟩
        · exact hput _ h
        · rw [List.append_assoc] at h
          exact hput _ h
  groups := fun group msg hroute => by
    have hdeliverable := deliverable_routeMessage write c buf pos msglen
    rw [hroute] at hdeliverable
    exact ⟨(sendToWorker_of_routeMessage hroute).2, hdeliverable.1⟩

/-- Every frame of every connection is routed once, to where its target says, and the components
of a target are those between its slashes. -/
theorem route_message_once (write : Writer) (c : ℤ) (buf : Bytes) (pos msglen : ℕ) :
    RoutedOnce write c buf pos msglen ∧ ∀ target, SplitAtSlashes target (splitTarget target) :=
  ⟨routedOnce write c buf pos msglen, splitAtSlashes⟩

end Xaprun
