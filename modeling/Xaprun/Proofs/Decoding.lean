import Xaprun.Proofs.Callbacks
import Xaprun.Sanity.Reader

/-! `check` undoes `send_msg_response`. The state of the reader between two reads is told by the
part of the stream that it has taken: with the bytes still to come it makes up the frames of
the responses that have not been handled. -/

namespace Xaprun.Client

open Frames Runs

theorem int_dec (n : ℕ) : int (dec n) = some (n : ℤ) := by
  rw [int_of_isdigit (dec_ne_nil n) dec_isdigit, value_dec]

/-! Responses as frames. -/

def Reply.body (r : Reply) : Bytes := r.msgid ++ space :: r.status :: r.payload

theorem Reply.bytes_eq (r : Reply) : r.bytes = frame r.body := by
  simp only [Reply.bytes, sendMsgResponse, str_eq_dec, Reply.body, frame]
  simp [text, byte, space, Nat.add_assoc]

def replies (rs : List Reply) : Bytes := (rs.map Reply.bytes).flatten

theorem replies_cons (r : Reply) (rs : List Reply) :
    replies (r :: rs) = dec r.body.length ++ space :: (r.body ++ replies rs) := by
  simp [replies, r.bytes_eq, frame]

variable {κ J : Type}

/-- What the reader has taken and the bytes still `todo` are the frames of `rs`; of the first
of them the length may have been read. -/
inductive InStep (rs : List Reply) (todo : Bytes) (conn : Connection κ) : Prop
  | length (h : conn.readMsgLen = none) (hb : conn.readBuf ++ todo = replies rs)
  | body (r : Reply) (rest : List Reply) (hrs : rs = r :: rest)
      (h : conn.readMsgLen = some (r.body.length : ℤ))
      (hb : conn.readBuf ++ todo = r.body ++ replies rest)

theorem exists_of_append_eq {as bs cs ds : Bytes} (h : as ++ bs = cs ++ ds)
    (hle : cs.length ≤ as.length) :
    ∃ es, as = cs ++ es ∧ es ++ bs = ds := by
  obtain ⟨es, rfl⟩ := List.prefix_of_prefix_length_le ⟨ds, h.symm⟩ ⟨bs, rfl⟩ hle
  rw [List.append_assoc, List.append_cancel_left_eq] at h
  exact ⟨es, rfl, h⟩

/-- The next pass of a reader that is in step: it needs more data, of which there is some if a
response is left, or it handles the first response. -/
inductive Progress (loads : Bytes → Option J) (rs : List Reply) (todo : Bytes)
    (conn : Connection κ) :
    Pass κ J → Prop
  | more (conn' : Connection κ) (hstep : InStep rs todo conn')
      (hpending : conn'.pending = conn.pending)
      (htodo : todo = [] → rs = []) : Progress loads rs todo conn (.more conn')
  | handled (r : Reply) (rest : List Reply) (conn' : Connection κ) (cb : κ) (hrs : rs = r :: rest)
      (hcb : conn.pending.lookup r.msgid = some cb)
        (hpending : conn'.pending = conn.pending.erase r.msgid)
      (hstep : InStep rest todo conn') :
      Progress loads rs todo conn (.handled conn' cb (response loads (r.status :: r.payload)))

theorem Progress.of_pending {loads : Bytes → Option J} {rs : List Reply} {todo : Bytes}
    {conn conn' : Connection κ} {p : Pass κ J} (h : Progress loads rs todo conn' p)
    (hpending : conn'.pending = conn.pending) : Progress loads rs todo conn p := by
  cases h with
  | more conn'' hstep hp htodo => exact .more conn'' hstep (hp.trans hpending) htodo
  | handled r rest conn'' cb hrs hcb hp hstep =>
    rw [hpending] at hcb hp
    exact .handled r rest conn'' cb hrs hcb hp hstep

section

variable (loads : Bytes → Option J) {todo : Bytes}

def Awaited (conn : Connection κ) (rs : List Reply) : Prop :=
  ∀ r ∈ rs, r.msgid ∈ conn.pending ∧ space ∉ r.msgid

theorem progress_handleMessage {conn : Connection κ} {r : Reply} {rest : List Reply}
    (hwait : Awaited conn (r :: rest)) (hb : conn.readBuf ++ todo = r.body ++ replies rest)
    (hle : r.body.length ≤ conn.readBuf.length) :
    Progress loads (r :: rest) todo conn (handleMessage loads conn r.body.length) := by
  obtain ⟨hmem, hspace⟩ := hwait r (List.mem_cons_self ..)
  obtain ⟨cb, hcb⟩ := Option.isSome_iff_exists.mp (AList.lookup_isSome.mpr hmem)
  obtain ⟨extra, hbuf, hextra⟩ := exists_of_append_eq hb hle
  have heq := handleMessage_body loads hspace hbuf hcb
  rw [show handleMessage loads conn r.body.length = _ from heq]
  exact .handled r rest _ cb rfl hcb rfl (.length rfl hextra)

theorem progress_readBody {conn : Connection κ} {r : Reply} {rest : List Reply}
    (hwait : Awaited conn (r :: rest)) (hlen : conn.readMsgLen = some (r.body.length : ℤ))
    (hb : conn.readBuf ++ todo = r.body ++ replies rest) :
    Progress loads (r :: rest) todo conn (readBody loads conn r.body.length) := by
  unfold readBody
  split
  · rename_i hle
    exact progress_handleMessage loads hwait hb (by exact_mod_cast hle)
  · rename_i hshort
    refine .more conn (.body r rest rfl hlen hb) rfl fun htodo => ?_
    -- with nothing to come the whole body is in the buffer
    rw [htodo, List.append_nil] at hb
    rw [hb] at hshort
    simp at hshort

/-- The length of the first response: it is not in the buffer yet, or it is read. -/
theorem progress_length {conn : Connection κ} {r : Reply} {rest : List Reply}
    (hwait : Awaited conn (r :: rest)) (hlen : conn.readMsgLen = none)
    (hb : conn.readBuf ++ todo = replies (r :: rest)) :
    Progress loads (r :: rest) todo conn (pass loads conn) := by
  rw [replies_cons] at hb
  by_cases hle : conn.readBuf.length ≤ (dec r.body.length).length
  · obtain ⟨es, hdec, hes⟩ := exists_of_append_eq hb.symm hle
    have hspace : space ∉ conn.readBuf := fun h =>
      space_notMem_dec r.body.length (hdec ▸ List.mem_append_left _ h)
    have hdrop : conn.readBuf.dropWhile (· = space) = conn.readBuf :=
      List.dropWhile_eq_self_iff.mpr fun hl he =>
        hspace (by simpa [of_decide_eq_true he] using List.getElem_mem hl)
    simp only [pass, hlen, hdrop, findIdx?_space_none hspace]
    refine .more _ (.length rfl ?_) rfl ?_
    · rw [replies_cons]; exact hb
    · rintro rfl
      simp at hes
  · have hcut : dec r.body.length ++ space :: (r.body ++ replies rest) =
        (dec r.body.length ++ [space]) ++ (r.body ++ replies rest) := by simp
    obtain ⟨es, hbuf, hes⟩ := exists_of_append_eq (hb.trans hcut) (by simp; omega)
    rw [List.append_assoc, List.singleton_append] at hbuf
    rw [pass_of_text loads hlen hbuf (space_notMem_dec _) (int_dec _)]
    have hnext : Awaited { conn with
      readMsgLen := some (r.body.length : ℤ), readBuf := es } (r :: rest) := hwait
    exact (progress_readBody loads hnext rfl hes).of_pending rfl

theorem progress_pass {conn : Connection κ} {rs : List Reply} (hwait : Awaited conn rs)
    (hstep : InStep rs todo conn) : Progress loads rs todo conn (pass loads conn) := by
  cases hstep with
  | length hlen hb =>
    cases rs with
    | nil =>
      have hbuf : conn.readBuf = [] := (List.append_eq_nil_iff.mp hb).1
      have heq : pass loads conn = .more { conn with readBuf := [], readMsgLen := none } := by
        simp only [pass, hlen, hbuf]
        rfl
      rw [heq]
      exact .more _ (.length rfl (hbuf ▸ hb)) rfl fun _ => rfl
    | cons r rest => exact progress_length loads hwait hlen hb
  | body r rest hrs hlen hb =>
    subst hrs
    simp only [pass, hlen]
    exact progress_readBody loads hwait hlen hb

end

/-! Calls of `check`. -/

theorem dataOf_cons (tick : Tick) (ticks : List Tick) :
    dataOf (tick :: ticks) = tick.data ++ dataOf ticks := rfl

/-- What a call of `check` of a reader in step comes to. A call that is still waiting has used
up the ticks, and no response is left. -/
inductive Outcome (loads : Bytes → Option J) (rs : List Reply) (ticks : List Tick)
    (conn : Connection κ) :
    Checked κ J → Prop
  | handled (r : Reply) (rest : List Reply) (conn' : Connection κ) (left : List Tick) (cb : κ)
      (hrs : rs = r :: rest) (hcb : conn.pending.lookup r.msgid = some cb)
      (hpending : conn'.pending = conn.pending.erase r.msgid)
        (hstep : InStep rest (dataOf left) conn')
      (hleft : left <:+ ticks) :
      Outcome loads rs ticks conn ⟨conn', [(cb, response loads (r.status :: r.payload))], left,
        some .handled⟩
  | timedOut (conn' : Connection κ) (left : List Tick) (hpending : conn'.pending = conn.pending)
      (hstep : InStep rs (dataOf left) conn') (hleft : left <:+ ticks)
        (hlt : left.length < ticks.length) :
      Outcome loads rs ticks conn ⟨conn', [], left, some .timedOut⟩
  | waits (conn' : Connection κ) (hpending : conn'.pending = conn.pending) (hrs : rs = [])
      (hstep : InStep [] [] conn') : Outcome loads rs ticks conn ⟨conn', [], [], none⟩

theorem outcome_check (loads : Bytes → Option J) {rs : List Reply} (ticks : List Tick) :
    ∀ conn : Connection κ, Awaited conn rs → .read none ∉ ticks → InStep rs (dataOf ticks) conn →
      Outcome loads rs ticks conn (check loads conn ticks) := by
  induction ticks with
  | nil =>
    intro conn hwait _ hstep
    have hp := progress_pass loads hwait hstep
    unfold check
    generalize pass loads conn = p at hp
    cases hp with
    | more conn' hstep' hpending htodo =>
      obtain rfl := htodo rfl
      exact .waits conn' hpending rfl hstep'
    | handled r rest conn' cb hrs hcb hpending hstep' =>
      exact .handled r rest conn' [] cb hrs hcb hpending hstep' (List.suffix_refl _)
  | cons tick ticks ih =>
    intro conn hwait heof hstep
    have hp := progress_pass loads hwait hstep
    unfold check
    generalize pass loads conn = p at hp
    cases hp with
    | handled r rest conn' cb hrs hcb hpending hstep' =>
      exact .handled r rest conn' _ cb hrs hcb hpending hstep' (List.suffix_refl _)
    | more conn' hstep' hpending htodo =>
      rcases tick with - | (- | data)
      · exact .timedOut conn' ticks hpending hstep' (List.suffix_cons _ _) (by simp)
      · exact absurd (List.mem_cons_self ..) heof
      · have hread : InStep rs (dataOf ticks) { conn' with readBuf := conn'.readBuf ++ data } := by
          rw [dataOf_cons, Tick.data] at hstep'
          cases hstep' with
          | length hlen hb => exact .length hlen (by rw [← hb, List.append_assoc])
          | body r rest hrs hlen hb => exact .body r rest hrs hlen (by rw [← hb, List.append_assoc])
        have hwait' : Awaited { conn' with readBuf := conn'.readBuf ++ data } rs := by
          intro r hr
          have := hwait r hr
          rwa [← hpending] at this
        have hnext := ih _ hwait' (fun h => heof (List.mem_cons_of_mem _ h)) hread
        simp only [Pass.andThen]
        generalize check loads { conn' with readBuf := conn'.readBuf ++ data } ticks = c at hnext
        cases hnext with
        | handled r rest conn'' left cb hrs hcb hp hstep'' hleft =>
          exact .handled r rest conn'' left cb hrs (hpending ▸ hcb) (hpending ▸ hp) hstep''
            (hleft.trans (List.suffix_cons _ _))
        | timedOut conn'' left hp hstep'' hleft hlt =>
          exact .timedOut conn'' left (hp.trans hpending) hstep''
            (hleft.trans (List.suffix_cons _ _))
            (by simp; omega)
        | waits conn'' hp hrs hstep'' => exact .waits conn'' (hp.trans hpending) hrs hstep''

theorem delivers_of_lookup {loads : Bytes → Option J} {conn : Connection κ} {r : Reply} {cb : κ}
    (h : conn.pending.lookup r.msgid = some cb) :
    Delivers loads conn (cb, response loads (r.status :: r.payload)) r where
  callback := h
  result := rfl
  success := fun hs => by simp [response, hs]
  parsed := fun hs value hv => by rcases hs with hs | hs | hs <;> simp [response, hs, hv, byte]
  unparsed := fun hs hv => by rcases hs with hs | hs | hs <;> simp [response, hs, hv, byte]

theorem Decoded.timedOut {loads : Bytes → Option J} {conn conn' : Connection κ} {rs : List Reply}
    {left : List Tick} {cs : List (Checked κ J)} (hpending : conn'.pending = conn.pending)
    (h : Decoded loads conn' rs cs) :
    Decoded loads conn rs (⟨conn', [], left, some .timedOut⟩ :: cs) where
  delivered := by
    refine h.delivered.imp fun f r hd => ⟨?_, hd.result, hd.success, hd.parsed, hd.unparsed⟩
    rw [← hpending]
    exact hd.callback
  single := List.forall_mem_cons.mpr ⟨.inr ⟨.inl rfl, rfl⟩, h.single⟩
  consumed := by
    obtain ⟨last, hlast, hrest⟩ := h.consumed
    exact ⟨last, by rw [List.getLast?_cons, hlast]; rfl, hrest⟩

theorem Decoded.handled {loads : Bytes → Option J} {conn conn' : Connection κ} {r : Reply}
    {rest : List Reply}
    {left : List Tick} {cb : κ} {cs : List (Checked κ J)}
    (hcb : conn.pending.lookup r.msgid = some cb)
    (hpending : conn'.pending = conn.pending.erase r.msgid) (hnew : r.msgid ∉ rest.map Reply.msgid)
    (h : Decoded loads conn' rest cs) :
    Decoded loads conn (r :: rest)
      (⟨conn', [(cb, response loads (r.status :: r.payload))], left, some .handled⟩ :: cs) where
  delivered := by
    refine .cons (delivers_of_lookup hcb) ?_
    -- the callbacks of the other responses were pending before this one was taken out
    refine List.forall₂_iff_get.mpr ⟨h.delivered.length_eq, fun i hf hr => ?_⟩
    have hd := (List.forall₂_iff_get.mp h.delivered).2 i hf hr
    refine ⟨?_, hd.result, hd.success, hd.parsed, hd.unparsed⟩
    have hne : (rest.get ⟨i, hr⟩).msgid ≠ r.msgid := fun he =>
      hnew (he ▸ List.mem_map_of_mem (List.get_mem ..))
    rw [← AList.lookup_erase_ne hne, ← hpending]
    exact hd.callback
  single := List.forall_mem_cons.mpr ⟨.inl ⟨rfl, rfl⟩, h.single⟩
  consumed := by
    obtain ⟨last, hlast, hrest⟩ := h.consumed
    exact ⟨last, by rw [List.getLast?_cons, hlast]; rfl, hrest⟩

theorem checkAll_decoded (loads : Bytes → Option J) (k : ℕ) :
    ∀ (conn : Connection κ) (ticks : List Tick) (rs : List Reply), ticks.length + rs.length < k →
      Awaited conn rs → (rs.map Reply.msgid).Nodup → .read none ∉ ticks →
        InStep rs (dataOf ticks) conn →
        Decoded loads conn rs (checkAll loads k conn ticks) := by
  induction k with
  | zero => intro conn ticks rs hk; omega
  | succ k ih =>
    intro conn ticks rs hk hwait hnd heof hstep
    have hout := outcome_check loads ticks conn hwait heof hstep
    unfold checkAll
    generalize check loads conn ticks = c at hout
    cases hout with
    | handled r rest conn' left cb hrs hcb hpending hstep' hleft =>
      subst hrs
      rw [List.map_cons, List.nodup_cons] at hnd
      have hwait' : Awaited conn' rest := by
        intro r' hr'
        obtain ⟨hmem, hspace⟩ := hwait r' (List.mem_cons_of_mem _ hr')
        have hne : r'.msgid ≠ r.msgid := fun he => hnd.1 (he ▸ List.mem_map_of_mem hr')
        exact ⟨by rw [hpending, AList.mem_erase]; exact ⟨hne, hmem⟩, hspace⟩
      have hlen := hleft.length_le
      rw [List.length_cons] at hk
      exact .handled hcb hpending hnd.1
        (ih conn' left rest (by omega) hwait' hnd.2 (fun h => heof (hleft.subset h)) hstep')
    | timedOut conn' left hpending hstep' hleft hlt =>
      have hwait' : Awaited conn' rs := fun r hr => by
        have := hwait r hr
        rwa [← hpending] at this
      exact .timedOut hpending
        (ih conn' left rs (by omega) hwait' hnd (fun h => heof (hleft.subset h)) hstep')
    | waits conn' hpending hrs hstep' =>
      subst hrs
      cases hstep' with
      | length hlen hb =>
        rw [List.append_nil] at hb
        exact ⟨.nil, by simp, ⟨_, rfl, rfl, rfl, hb, hlen⟩⟩
      | body r rest hrs => cases hrs

theorem Session.Accounted.awaited {s : Session κ J} (h : Session.Accounted s) {rs : List Reply}
    (hrs : ∀ r ∈ rs, r.msgid ∈ s.conn.pending) : Awaited s.conn rs := by
  intro r hr
  obtain ⟨n, -, hn⟩ := h.dec_of_mem (hrs r hr)
  exact ⟨hrs r hr, hn ▸ space_notMem_dec n⟩

/-- For every sequence of responses to distinct pending ids, however their bytes are cut into
reads and whatever timeouts there are in between, the calls of `check` handle exactly these
responses. -/
theorem responses_decoded (loads : Bytes → Option J) {s : Session κ J}
    (h : Reachable (Session.step loads) free (Session.init κ J) s) (hbuf : s.conn.readBuf = [])
    (hlen : s.conn.readMsgLen = none) (rs : List Reply) (hnd : (rs.map Reply.msgid).Nodup)
    (hrs : ∀ r ∈ rs, r.msgid ∈ s.conn.pending) (ticks : List Tick) (heof : .read none ∉ ticks)
    (hdata : dataOf ticks = (rs.map Reply.bytes).flatten) (k : ℕ)
    (hk : ticks.length + rs.length < k) :
    Decoded loads s.conn rs (checkAll loads k s.conn ticks) := by
  have hwait := (Session.accounted_of_reachable h).awaited hrs
  have hstep : InStep rs (dataOf ticks) s.conn := .length hlen (by rw [hbuf, hdata]; rfl)
  exact checkAll_decoded loads k s.conn ticks rs hk hwait hnd heof hstep

/-- Two answers in four reads, the first of which ends within a length and the third in the
status of a response. -/
theorem responses_decoded_twoAnswers :
    let s := ((Session.init Unit Unit).send ⟨text "G", text "version", [], ()⟩).send
      ⟨text "G", text "version", [], ()⟩
    let ticks : List Tick := [.read (some (text "1")), .read (some []), .expired,
      .read (some (text "0 1 S0.1 6 7")), .read (some (text "6 0 J")), .expired,
        .read (some (text "0.2"))]
    Decoded (fun _ => some ()) s.conn [⟨text "1", byte 'S', text "0.1 6 7"⟩,
      ⟨text "0", byte 'J', text "0.2"⟩]
      (checkAll (fun _ => some ()) 10 s.conn ticks) := by
  intro s ticks
  have hreach : Reachable (Session.step fun _ => some ()) free (Session.init Unit Unit) s :=
    (Reachable.start.next trivial (a := .send ⟨text "G", text "version", [], ()⟩) rfl).next trivial
      (a := .send ⟨text "G", text "version", [], ()⟩) rfl
  exact responses_decoded _ hreach rfl rfl _ (by decide) (by decide) ticks (by decide)
    (by decide) 10 (by decide)

end Xaprun.Client
