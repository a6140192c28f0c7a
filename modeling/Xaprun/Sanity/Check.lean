import Xaprun.Spec.Session

/-! What a call of `check` can do to the callbacks: it leaves them in `pending`, or it invokes
them and takes them out. -/

namespace Xaprun.Client

open Frames

variable {κ J : Type}

/-- The callbacks in `pending`. -/
def Connection.callbacks (conn : Connection κ) : List κ := conn.pending.entries.map Sigma.snd

/-- From `conn` to `conn'` some callbacks have been invoked: these and those still in `pending`
are the ones that were in `pending` before, and a connection that has been closed has none. -/
structure Kept (conn conn' : Connection κ) (invoked : List (κ × Result J)) : Prop where
  ledger : conn.callbacks.Perm (invoked.map Prod.fst ++ conn'.callbacks)
  entries : conn'.pending.entries ⊆ conn.pending.entries
  nextId : conn'.nextId = conn.nextId
  closed : conn'.closed = conn.closed ∨ conn'.closed = true ∧ conn'.pending = ∅

theorem Kept.of_eq {conn conn' : Connection κ} (hp : conn'.pending = conn.pending)
    (hn : conn'.nextId = conn.nextId) (hc : conn'.closed = conn.closed) :
    Kept (J := J) conn conn' [] where
  ledger := by simp [Connection.callbacks, hp]
  entries := by rw [hp]; exact List.Subset.refl _
  nextId := hn
  closed := .inl hc

theorem Kept.trans {conn conn' conn'' : Connection κ} {invoked invoked' : List (κ × Result J)}
    (h : Kept conn conn' invoked) (h' : Kept conn' conn'' invoked') :
    Kept conn conn'' (invoked ++ invoked') where
  ledger := by
    rw [List.map_append, List.append_assoc]
    exact h.ledger.trans (h'.ledger.append_left _)
  entries := List.Subset.trans h'.entries h.entries
  nextId := h'.nextId.trans h.nextId
  closed := by
    rcases h'.closed with hc' | hc'
    · rcases h.closed with hc | ⟨hc, hp⟩
      · exact .inl (hc'.trans hc)
      · refine .inr ⟨hc'.trans hc, AList.ext (List.eq_nil_of_subset_nil ?_)⟩
        have := h'.entries
        rwa [hp] at this
    · exact .inr hc'

theorem send_cases (conn : Connection κ) (method target payload : Bytes) (callback : κ) :
    (¬ (method <:+: text "GPUD" ∧ method.length = 1 ∧ space ∉ target) ∧
      send conn method target payload callback = .error .assertionError) ∨
    (conn.closed = true ∧
      send conn method target payload callback = .ok ⟨conn, [], [(callback, closedResult)]⟩) ∨
    (conn.closed = false ∧ ∃ written, send conn method target payload callback =
      .ok ⟨{ conn with
        pending := conn.pending.insert (dec conn.nextId) callback
        nextId := conn.nextId + 1 }, written, []⟩) := by
  unfold send
  cases hclosed : conn.closed with
  | true => exact .inr (.inl ⟨rfl, by simp⟩)
  | false =>
    by_cases hmethod : method <:+: text "GPUD" ∧ method.length = 1
    · by_cases htarget : space ∈ target
      · exact .inl ⟨by simp [htarget], by simp [hmethod, htarget]⟩
      · exact .inr (.inr ⟨rfl, _, by simp [hmethod, htarget]; rfl⟩)
    · exact .inl ⟨fun h => hmethod ⟨h.1, h.2.1⟩, by simp [hmethod]⟩

theorem entries_perm_of_lookup {m : AList fun _ : Bytes => κ} {k : Bytes} {v : κ}
    (h : m.lookup k = some v) : m.entries.Perm (⟨k, v⟩ :: (m.erase k).entries) := by
  have hmem : k ∈ m := AList.lookup_isSome.mp (by rw [h]; rfl)
  obtain ⟨b, before, after, -, heq, herase⟩ := List.exists_of_kerase (AList.mem_keys.mp hmem)
  have hb : m.lookup k = some b :=
    AList.mem_lookup_iff.mpr (by rw [heq]; exact List.mem_append_right _ (List.mem_cons_self ..))
  obtain rfl : v = b := Option.some.inj (h.symm.trans hb)
  change m.entries.Perm (⟨k, v⟩ :: List.kerase k m.entries)
  rw [herase, heq]
  exact List.perm_middle

theorem Kept.erased {conn : Connection κ} {msgid : Bytes} {cb : κ} (result : Result J)
    (h : conn.pending.lookup msgid = some cb) (buf : Bytes) :
    Kept conn { conn with pending := conn.pending.erase msgid, readBuf := buf, readMsgLen := none }
      [(cb, result)] where
  ledger := by
    have := (entries_perm_of_lookup h).map Sigma.snd
    simpa [Connection.callbacks] using this
  entries := (List.kerase_sublist msgid conn.pending.entries).subset
  nextId := rfl
  closed := .inl rfl

theorem kept_cleanup (conn : Connection κ) :
    Kept (J := J) conn (cleanup (J := J) conn).1 (cleanup conn).2 where
  ledger := by simp [cleanup, Connection.callbacks, Function.comp_def]
  entries := by simp [cleanup]
  nextId := rfl
  closed := .inr ⟨rfl, rfl⟩

/-- What a pass makes of a connection, and that a failed pass closes it. -/
def Pass.Keeps (conn : Connection κ) : Pass κ J → Prop
  | .more conn' => Kept (J := J) conn conn' []
  | .handled conn' cb result => Kept conn conn' [(cb, result)]
  | .failed conn' invoked _ => Kept conn conn' invoked ∧ conn'.closed = true

theorem Pass.Keeps.mono {conn conn' : Connection κ} (h : Kept (J := J) conn conn' []) {p : Pass κ J}
    (hp : p.Keeps conn') : p.Keeps conn := by
  cases p with
  | more conn'' => exact h.trans hp
  | handled conn'' cb result => exact h.trans hp
  | failed conn'' invoked msg => exact ⟨h.trans hp.1, hp.2⟩

theorem keeps_failed (conn : Connection κ) (msg : Bytes) : (failed (J := J) conn msg).Keeps conn :=
  ⟨kept_cleanup conn, rfl⟩

section

variable (loads : Bytes → Option J)

theorem keeps_handleMessage (conn : Connection κ) (n : ℤ) :
    (handleMessage loads conn n).Keeps conn := by
  unfold handleMessage
  dsimp only
  split
  · exact keeps_failed conn _
  · rename_i i _
    cases hlookup : conn.pending.lookup ((sliceTo conn.readBuf n).take i) with
    | none => exact keeps_failed conn _
    | some cb => exact .erased _ hlookup _

theorem keeps_readBody (conn : Connection κ) (n : ℤ) : (readBody loads conn n).Keeps conn := by
  unfold readBody
  split
  · exact keeps_handleMessage loads conn n
  · exact .of_eq rfl rfl rfl

theorem keeps_pass (conn : Connection κ) : (pass loads conn).Keeps conn := by
  unfold pass
  split
  · exact keeps_readBody loads conn _
  · -- what is read or skipped leaves `pending` alone
    have hsame : ∀ len buf, Kept (J := J) conn { conn with readMsgLen := len, readBuf := buf } [] :=
      fun len buf => .of_eq rfl rfl rfl
    dsimp only
    split
    · exact hsame _ _
    · split
      · exact (keeps_failed _ _).mono (hsame _ _)
      · exact (keeps_readBody loads _ _).mono (hsame _ _)

/-- What a call of `check` makes of a connection, and that it closes it when it raises. -/
structure Checked.Keeps (conn : Connection κ) (c : Checked κ J) : Prop where
  kept : Kept conn c.conn c.invoked
  raised : ∀ msg, c.outcome = some (.raised msg) → c.conn.closed = true

theorem keeps_andThen {conn : Connection κ} {ticks : List Tick} {k : Connection κ → Checked κ J}
    {p : Pass κ J} (hp : p.Keeps conn)
    (hk : ∀ conn', Kept (J := J) conn conn' [] → (k conn').Keeps conn) :
    (p.andThen ticks k).Keeps conn := by
  cases p with
  | more conn' => exact hk conn' hp
  | handled conn' cb result => exact ⟨hp, by simp [Pass.andThen]⟩
  | failed conn' invoked msg => exact ⟨hp.1, fun _ _ => hp.2⟩

theorem keeps_check (ticks : List Tick) :
    ∀ conn : Connection κ, (check loads conn ticks).Keeps conn := by
  induction ticks with
  | nil =>
    intro conn
    exact keeps_andThen (keeps_pass loads conn) fun conn' h => ⟨h, by simp⟩
  | cons tick ticks ih =>
    intro conn
    apply keeps_andThen (keeps_pass loads conn)
    intro conn' h
    match tick with
    | .expired => exact ⟨h, by simp⟩
    | .read none =>
      exact keeps_andThen ((keeps_failed conn' _).mono h) fun conn'' h' => ⟨h', by simp⟩
    | .read (some data) =>
      have hread : Kept (J := J) conn { conn' with readBuf := conn'.readBuf ++ data } [] :=
        h.trans (.of_eq rfl rfl rfl)
      have := ih { conn' with readBuf := conn'.readBuf ++ data }
      exact ⟨hread.trans this.kept, this.raised⟩

end

end Xaprun.Client
