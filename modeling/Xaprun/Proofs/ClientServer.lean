import Xaprun.Spec.Client
import Xaprun.Sanity.Messages
import Xaprun.Proofs.Framing

/-! What the client encodes, the server decodes. The client's frames have no white
space between them and no line ends in them, so no frame is late in a harmful way
and every read gets as far as its bytes allow. -/

namespace Xaprun

open Frames

section Plain

theorem scan_stream (fs : List Frame) (tail : Bytes) : ∀ o, scan false o fs (stream fs tail) =
    ⟨fs.map Frame.body, [], [], false⟩ := by
  induction fs with
  | nil => intro o; rfl
  | cons f fs ih =>
    intro o
    have hlen : f.bytes.length ≤ (stream (f :: fs) tail).length := by
      rw [stream_cons, List.length_append]; omega
    rcases scan_cases false o f fs (stream (f :: fs) tail) with
      ⟨h, -⟩ | ⟨-, h, -⟩ | ⟨-, h, -⟩ | ⟨-, -, he⟩
    · have := f.bytes_length; omega
    · simp at h
    · omega
    · rw [he, stream_cons, List.drop_left, ih]; rfl

theorem scan_left_ws {cap : Bool} {fs : List Frame} (h : ∀ f ∈ fs, f.ws = []) :
    ∀ {o : ℕ} {r : Bytes}, ∀ f ∈ (scan cap o fs r).left, f.ws = [] := by
  induction fs with
  | nil => intro o r f hf; simp [scan] at hf
  | cons g fs ih =>
    intro o r f hf
    have hfs : ∀ f ∈ fs, f.ws = [] := fun f hf => h f (by simp [hf])
    rcases scan_cases cap o g fs r with ⟨-, he⟩ | ⟨-, -, -, he⟩ | ⟨-, -, -, he⟩ | ⟨-, -, he⟩ <;>
      rw [he] at hf
    · rcases List.mem_cons.mp hf with rfl | hf
      · simp [Frame.trim, h g (by simp)]
      · exact hfs f hf
    · rcases List.mem_cons.mp hf with rfl | hf
      · exact g.bare_ws
      · exact hfs f hf
    · rcases List.mem_cons.mp hf with rfl | hf
      · exact g.bare_ws
      · exact hfs f hf
    · exact ih hfs f hf

theorem scanRead_plain {fs : List Frame} (h : ∀ f ∈ fs, f.ws = []) (buf : Bytes) :
    scanRead fs buf = scan false 0 fs buf := by
  unfold scanRead
  rw [if_neg]
  rintro ⟨hl, hnil⟩
  refine scan_late_bodies ?_ hl hnil
  cases fs with
  | nil => simp [scan] at hl
  | cons f fs => exact Or.inr ⟨f, fs, rfl, h f (by simp)⟩

theorem feed_plain (c : ℤ) (chunks : List Bytes) : ∀ {fs : List Frame} (buf : Bytes),
    (∀ f ∈ fs, f.ws = []) → (∀ b ∈ buf ++ chunks.flatten, iscrlf b = false) →
    buf ++ chunks.flatten = stream fs [] → (chunks = [] → fs = []) →
    Served c (feed c buf chunks).1 (fs.map Frame.body) ∧ (feed c buf chunks).2 = [] := by
  induction chunks with
  | nil =>
    intro fs buf _ _ h hfs
    obtain rfl := hfs rfl
    exact ⟨rfl, by simpa [feed, stream] using h⟩
  | cons chunk chunks ih =>
    intro fs buf hws hcr h _
    have h' : (buf ++ chunk) ++ chunks.flatten = stream fs [] := by simpa using h
    have hno : ¬ (scan true 0 fs (buf ++ chunk)).resync := fun hs => by
      obtain ⟨b, hb, hbcr⟩ := List.any_eq_true.mp hs.2
      have hb' := (scan_rest_suffix true fs 0 (buf ++ chunk)).subset hb
      have hflat : b ∈ buf ++ (chunk :: chunks).flatten := by
        rw [List.flatten_cons, ← List.append_assoc]
        exact List.mem_append_left _ hb'
      simp [hcr b hflat] at hbcr
    obtain ⟨hserved, hrest⟩ :=
      dispatchAll_scan c ((buf ++ chunk).length + 1) (by simp) h' (by omega) hno
    rw [scanRead_plain hws] at hserved hrest
    obtain ⟨hbodies, tail', hsuf, h''⟩ := scan_account false fs 0 (buf ++ chunk) h'
    obtain rfl : tail' = [] := List.suffix_nil.mp hsuf
    have hcr' : ∀ b ∈ (scan false 0 fs (buf ++ chunk)).rest ++ chunks.flatten, iscrlf b =
        false := by
      intro b hb
      apply hcr b
      simp only [List.flatten_cons, ← List.append_assoc]
      rcases List.mem_append.mp hb with hb | hb
      · exact List.mem_append_left _ ((scan_rest_suffix false fs 0 _).subset hb)
      · exact List.mem_append_right _ hb
    have hlast : chunks = [] → (scan false 0 fs (buf ++ chunk)).left = [] := by
      rintro rfl
      rw [show buf ++ chunk = stream fs [] by simpa using h', scan_stream]
    obtain ⟨hserved', hrest'⟩ := ih _ (scan_left_ws hws) hcr' h'' hlast
    rw [← hrest] at hserved' hrest'
    rw [hbodies]
    exact ⟨served_append hserved hserved', hrest'⟩

end Plain

namespace Client

variable {κ : Type}

theorem dec_no_space (n : ℕ) : space ∉ dec n := fun h =>
  absurd (dec_isdigit _ h) (by decide)

theorem iscrlf_of_isdigit {b : UInt8} (h : isdigit b = true) : iscrlf b = false := by
  by_contra hcr
  rw [Bool.not_eq_false] at hcr
  have := not_isspace_of_isdigit h
  rw [isspace_of_iscrlf hcr] at this
  simp at this

theorem dec_no_line (n : ℕ) : ∀ b ∈ dec n, iscrlf b = false := fun b hb =>
  iscrlf_of_isdigit (dec_isdigit b hb)

theorem forall_not_iscrlf {bs : Bytes} (h : bs.any iscrlf = false) :
    ∀ b ∈ bs, iscrlf b = false := by
  simpa using h

theorem Request.Valid.method_plain {r : Request κ} (h : r.Valid) :
    (r.method <:+: text "GPUD" ∧ r.method.length = 1) ∧ space ∉ r.method ∧
      ∀ b ∈ r.method, iscrlf b = false := by
  have hm := h.method
  simp only [List.mem_cons, List.not_mem_nil, or_false] at hm
  rcases hm with hm | hm | hm | hm <;> rw [hm] <;>
    exact ⟨by decide, by decide, forall_not_iscrlf (by decide)⟩

theorem send_valid {conn : Connection κ} (hopen : conn.closed = false) {r : Request κ} (h : r.Valid)
    (c : ℤ) :
    ∃ pending, send conn r.method r.target r.payload r.callback =
      .ok ⟨{ conn with pending := pending, nextId := conn.nextId + 1 },
        frame (Message.body ⟨c, dec conn.nextId, r.method ++ r.target, r.payload⟩), []⟩ := by
  refine ⟨conn.pending.insert (dec conn.nextId) r.callback, ?_⟩
  have hmsg : message (dec conn.nextId) r.method r.target r.payload =
      Message.body ⟨c, dec conn.nextId, r.method ++ r.target, r.payload⟩ := by
    simp [message, Message.body, text, byte, space]
  simp only [send, hopen, Bool.false_eq_true, if_false, h.method_plain.1, h.target_space,
    hmsg]
  simp [frame, text, byte, space]

theorem sendAll_valid (c : ℤ) (rs : List (Request κ)) : ∀ (conn : Connection κ),
    conn.closed = false → (∀ r ∈ rs, r.Valid) →
    ∃ s, sendAll conn rs = .ok s ∧
      s.written = ((messages c conn.nextId rs).map fun m => frame m.body).flatten := by
  induction rs with
  | nil => intro conn _ _; exact ⟨_, rfl, rfl⟩
  | cons r rs ih =>
    intro conn hopen hv
    obtain ⟨pending, hsend⟩ := send_valid hopen (hv r (by simp)) c
    obtain ⟨t, ht, hwritten⟩ := ih { conn with pending := pending, nextId := conn.nextId + 1 }
      hopen fun r' hr' => hv r' (by simp [hr'])
    simp only [sendAll, hsend, ht]
    exact ⟨_, rfl, by rw [hwritten]; rfl⟩

theorem messages_plain (c : ℤ) (rs : List (Request κ)) (hv : ∀ r ∈ rs, r.Valid) : ∀ (n : ℕ),
    ∀ m ∈ messages c n rs, m.connectionNum = c ∧ space ∉ m.msgid ∧ space ∉ m.target ∧
      ∀ b ∈ m.body, iscrlf b = false := by
  induction rs with
  | nil => intro n m hm; simp [messages] at hm
  | cons r rs ih =>
    intro n m hm
    rcases List.mem_cons.mp hm with rfl | hm
    · have hr := hv r (by simp)
      obtain ⟨-, hsp, hline⟩ := hr.method_plain
      refine ⟨rfl, dec_no_space n, fun h => ?_, fun b hb => ?_⟩
      · rcases List.mem_append.mp h with h | h
        · exact hsp h
        · exact hr.target_space h
      · simp only [Message.body, List.mem_append, List.mem_cons] at hb
        rcases hb with hb | rfl | (hb | hb) | rfl | hb
        · exact dec_no_line n b hb
        · rfl
        · exact hline b hb
        · exact hr.target_line b hb
        · rfl
        · exact hr.payload_line b hb
    · exact ih (fun r' hr' => hv r' (by simp [hr'])) (n + 1) m hm

theorem frames_of_messages (ms : List Message) (h : ∀ m ∈ ms, m.body.length < 10 ^ 9) :
    ∃ fs : List Frame, fs.map Frame.body = ms.map Message.body ∧ (∀ f ∈ fs, f.ws = []) ∧
      stream fs [] = (ms.map fun m => frame m.body).flatten := by
  induction ms with
  | nil => exact ⟨[], rfl, by simp, rfl⟩
  | cons m ms ih =>
    obtain ⟨fs, hbody, hws, hstream⟩ := ih fun m' hm' => h m' (by simp [hm'])
    refine ⟨⟨[], m.body, by simp, h m (by simp)⟩ :: fs, by simp [hbody], ?_, ?_⟩
    · intro f hf
      rcases List.mem_cons.mp hf with rfl | hf
      · rfl
      · exact hws f hf
    · rw [stream_cons, hstream]; rfl

theorem built_of_served {c : ℤ} {es : List Call} {ms : List Message}
    (hm : ∀ m ∈ ms, m.connectionNum = c ∧ space ∉ m.msgid ∧ space ∉ m.target)
    (h : Served c es (ms.map Message.body)) :
    es.map Call.built = ms.map fun m => some (.ok m) := by
  induction ms generalizing es with
  | nil =>
    have : es = [] := by simpa [Served] using h
    simp [this]
  | cons m ms ih =>
    cases es with
    | nil => simp [Served] at h
    | cons e es =>
      obtain ⟨hc, hid, htarget⟩ := hm m (by simp)
      simp only [Served, List.map_cons, List.cons.injEq] at h
      rw [List.map_cons, List.map_cons, ih (fun m' hm' => hm m' (by simp [hm'])) h.2]
      congr 1
      cases e with
      | sendFatalError c' p => simp [Call.routed] at h
      | routeMessage c' buf pos msglen =>
        simp only [Call.routed, Option.some.injEq, Prod.mk.injEq] at h
        obtain ⟨⟨rfl, hbody⟩, -⟩ := h
        simp only [Call.built]
        rw [buildMessage_body hbody hid htarget, ← hc]

/-- However the bytes written by a sequence of `send` calls are cut into reads, the server
builds exactly the messages that were sent, in order, reports no error and keeps nothing in
the read buffer. -/
theorem sent_messages_built (conn : Connection κ) (hopen : conn.closed = false)
    (rs : List (Request κ)) (hv : ∀ r ∈ rs, r.Valid) (c : ℤ)
    (hlen : ∀ m ∈ messages c conn.nextId rs, m.body.length < 10 ^ 9) :
    ∃ s, sendAll conn rs = .ok s ∧ ∀ reads : Reads s.written,
      (feed c [] reads.chunks).1.map Call.built =
        (messages c conn.nextId rs).map (fun m => some (.ok m)) ∧
      (feed c [] reads.chunks).2 = [] := by
  obtain ⟨s, hs, hwritten⟩ := sendAll_valid c rs conn hopen hv
  refine ⟨s, hs, fun reads => ?_⟩
  have hplain := messages_plain c rs hv conn.nextId
  obtain ⟨fs, hbody, hws, hstream⟩ := frames_of_messages _ hlen
  have hflat : reads.chunks.flatten = stream fs [] := by rw [reads.whole, hwritten, hstream]
  have hcr : ∀ b ∈ reads.chunks.flatten, iscrlf b = false := by
    intro b hb
    rw [reads.whole, hwritten] at hb
    simp only [List.mem_flatten, List.mem_map] at hb
    obtain ⟨_, ⟨m, hm, rfl⟩, hb⟩ := hb
    simp only [frame, List.mem_append, List.mem_cons] at hb
    rcases hb with hb | rfl | hb
    · exact dec_no_line _ b hb
    · rfl
    · exact (hplain m hm).2.2.2 b hb
  have hnone : reads.chunks = [] → fs = [] := by
    intro hnil
    rw [hnil] at hflat
    cases fs with
    | nil => rfl
    | cons f fs =>
      have := congrArg List.length hflat
      rw [stream_cons, List.length_append, f.bytes_length, List.flatten_nil, List.length_nil]
        at this
      omega
  obtain ⟨hserved, hrest⟩ := feed_plain c reads.chunks [] hws hcr hflat hnone
  rw [hbody] at hserved
  refine ⟨built_of_served (fun m hm => ?_) hserved, hrest⟩
  obtain ⟨hconn, hid, htarget, -⟩ := hplain m hm
  exact ⟨hconn, hid, htarget⟩

/-- Two requests for the version. -/
theorem sent_messages_built_versions :
    ∃ s, sendAll (Connection.init ℕ) [⟨text "G", text "version", [], 0⟩,
      ⟨text "G", text "version", [], 1⟩] =
        .ok s ∧ ∀ reads : Reads s.written,
      (feed 0 [] reads.chunks).1.map Call.built =
        [some (.ok ⟨0, text "0", text "Gversion", []⟩),
          some (.ok ⟨0, text "1", text "Gversion", []⟩)] ∧
      (feed 0 [] reads.chunks).2 = [] := by
  have hv : ∀ r ∈ [(⟨text "G", text "version", [], 0⟩ : Request ℕ),
    ⟨text "G", text "version", [], 1⟩],
      r.Valid := by
    intro r hr
    simp only [List.mem_cons, List.not_mem_nil, or_false] at hr
    rcases hr with rfl | rfl <;>
      exact ⟨by decide, by decide, forall_not_iscrlf (by decide), forall_not_iscrlf (by decide)⟩
  exact sent_messages_built (Connection.init ℕ) rfl _ hv 0 (by decide)

end Client

end Xaprun
