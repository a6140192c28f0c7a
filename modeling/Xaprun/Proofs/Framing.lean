import Xaprun.Sanity.Rounds
import Xaprun.Sanity.Scan

/-! Request framing. On a stream of well-formed frames the framing loop follows
`scan`: a call routes the frames up to the first late one, and a line end after a
late frame makes it report garbage. From this, a connection serves a request
stream exactly when the stream is cut smoothly. -/

namespace Xaprun

open Frames

theorem served_cons {c : ℤ} {e : Call} {es : List Call} {b : Bytes} {bs : List Bytes}
    (he : e.routed = some (c, b)) (h : Served c es bs) : Served c (e :: es) (b :: bs) := by
  unfold Served at *
  simp [he, h]

theorem served_append {c : ℤ} {es es' : List Call} {bs bs' : List Bytes}
    (h : Served c es bs) (h' : Served c es' bs') : Served c (es ++ es') (bs ++ bs') := by
  unfold Served at *
  simp [h, h']

theorem not_served_of_error {c : ℤ} {es : List Call} {bs : List Bytes} {e : Call} (he : e ∈ es)
    (hr : e.routed = none) : ¬ Served c es bs := by
  intro h
  have : none ∈ bs.map fun b => some (c, b) := by
    unfold Served at h
    rw [← h, ← hr]
    exact List.mem_map_of_mem he
  simp at this

theorem served_length {c : ℤ} {es : List Call} {bs : List Bytes} (h : Served c es bs) :
    es.length = bs.length := by
  simpa using congrArg List.length h

section Loop

variable (c : ℤ) {tail future : Bytes}

/-- A frame that is not all there yet: the loop stops in front of it. -/
theorem loop_unfinished (f : Frame) {pre r y z : Bytes}
    (h : r ++ y = f.head ++ (space :: f.body ++ z)) (hlen : r.length < (frame f.body).length)
    (hfits : (pre ++ f.ws).length + f.head.length ≤ MAX_MSG_LEN_LEN) (fuel : ℕ) (found : Bool) :
    dispatchLoop c (pre ++ (f.ws ++ r)) (fuel + 1) pre.length found =
      ⟨[], (pre ++ f.ws).length, found⟩ := by
  by_cases hfield : r.length ≤ f.head.length
  · exact round_short c f.blank h hfits hfield fuel found
  · obtain ⟨hr, h'⟩ := split_beyond h (by omega)
    have hrlen : r.length = f.head.length + (r.drop f.head.length).length := by
      rw [List.length_drop]; omega
    generalize r.drop f.head.length = r' at hr h' hrlen
    obtain ⟨b, r', rfl⟩ := List.exists_cons_of_ne_nil (l := r') (fun hn => by
      rw [hn, List.length_nil] at hrlen; omega)
    obtain rfl : b = space := by simpa using congrArg List.head? h'
    have hshort : r'.length < f.body.length := by
      rw [frame_length] at hlen
      simp only [List.length_cons, Frame.head] at hrlen
      omega
    subst hr
    exact (round_header c f.blank hfits r' fuel found).trans (if_pos hshort)

theorem loop_whole (f : Frame) {pre : Bytes} (r : Bytes)
    (hfits : (pre ++ f.ws).length + f.head.length ≤ MAX_MSG_LEN_LEN) (fuel : ℕ) (found : Bool) :
    ∃ e, e.routed = some (c, f.body) ∧
      dispatchLoop c (pre ++ (f.bytes ++ r)) (fuel + 1) pre.length found =
        (let t := dispatchLoop c (pre ++ f.bytes ++ r) fuel (pre ++ f.bytes).length true
         { t with calls := e :: t.calls }) := by
  have hbuf : pre ++ (f.bytes ++ r) = pre ++ (f.ws ++ (f.head ++ space :: (f.body ++ r))) := by
    simp [Frame.bytes, frame, Frame.head]
  have hpos : (pre ++ f.ws).length + f.head.length + 1 + f.body.length =
      (pre ++ f.bytes).length := by
    rw [List.length_append, List.length_append, f.bytes_length]; omega
  refine ⟨.routeMessage c (pre ++ (f.bytes ++ r)) ((pre ++ f.ws).length + f.head.length + 1)
    f.body.length, ?_, ?_⟩
  · have hpre : pre ++ (f.bytes ++ r) = (pre ++ f.ws ++ f.head ++ [space]) ++ (f.body ++ r) := by
      simp [Frame.bytes, frame, Frame.head]
    have hplen : (pre ++ f.ws).length + f.head.length + 1 =
        (pre ++ f.ws ++ f.head ++ [space]).length := by
      simp only [List.length_append, List.length_singleton]
    simp only [Call.routed, substr]
    rw [hpre, hplen, List.drop_left, List.take_left]
  · rw [List.append_assoc, hbuf, ← hpos]
    exact (round_header c f.blank hfits (f.body ++ r) fuel found).trans
      (if_neg (by rw [List.length_append]; omega))

/-- The framing loop on a piece `r` of a stream, `pre` being the bytes dealt with before. The
induction is on the frames of the stream; the fuel only has to cover the bytes. -/
theorem dispatchLoop_scan (htail : ∀ b ∈ tail, isspace b = true) :
    ∀ (fs : List Frame) (pre r : Bytes) (fuel : ℕ) (found : Bool),
      r ++ future = stream fs tail → r.length < fuel →
      let s := scan true pre.length fs r
      let d := dispatchLoop c (pre ++ r) fuel pre.length found
      (¬ s.resync → Served c d.calls s.bodies ∧ (pre ++ r).drop d.startpos = s.rest ∧
        d.found = (found || !s.bodies.isEmpty)) ∧
      (s.resync → ∃ e ∈ d.calls, e.routed = none) := by
  intro fs
  induction fs with
  | nil =>
    intro pre r fuel found h hfuel
    obtain ⟨fuel, rfl⟩ : ∃ k, fuel = k + 1 := ⟨fuel - 1, by omega⟩
    have hr : ∀ b ∈ r, isspace b = true := fun b hb => htail b (by
      rw [show tail = r ++ future by simpa [stream] using h.symm]
      exact List.mem_append_left _ hb)
    simp only [round_blank c hr, scan]
    exact ⟨fun _ => ⟨rfl, by simp, by simp⟩, fun hs => absurd hs.1 (by simp)⟩
  | cons f fs ih =>
    intro pre r fuel found h hfuel
    obtain ⟨fuel, rfl⟩ : ∃ k, fuel = k + 1 := ⟨fuel - 1, by omega⟩
    have hws : (pre ++ f.ws).length = pre.length + f.ws.length := List.length_append
    have hdrop : ∀ x : Bytes, (pre ++ (f.ws ++ x)).drop (pre ++ f.ws).length = x := fun x => by
      rw [← List.append_assoc, List.drop_left]
    rcases scan_cases true pre.length f fs r with
      ⟨hlen, he⟩ | ⟨hlen, -, hlate, he⟩ | ⟨hlen, hpart, hfits, he⟩ |
        ⟨hlen, hfits, he⟩ <;> simp only [he]
    · -- white space only so far
      obtain ⟨hr, -⟩ := split_inside (h.trans (stream_cons_ws f fs tail)) hlen
      have hblank : ∀ b ∈ r, isspace b = true := fun b hb =>
        f.blank b (by rw [hr]; exact List.mem_append_left _ hb)
      simp only [round_blank c hblank]
      exact ⟨fun _ => ⟨rfl, by simp, by simp⟩, fun hs => absurd hs.1 (by simp)⟩
    · obtain ⟨hr, h₂⟩ := split_beyond (h.trans (stream_cons_ws f fs tail)) hlen.le
      generalize r.drop f.ws.length = r₁ at hr h₂
      subst hr
      refine ⟨fun hs => ?_, fun hs => ?_⟩
      · have hcr : r₁.any iscrlf = false := by simpa [Scan.resync] using hs
        rw [round_late c f.blank h₂ (by rw [hws]; exact hlate) hcr]
        exact ⟨rfl, hdrop r₁, by simp⟩
      · exact ⟨_, round_resync c f.blank h₂ (by rw [hws]; exact hlate) hs.2 fuel found, rfl⟩
    · obtain ⟨hr, h₂⟩ := split_beyond (h.trans (stream_cons_ws f fs tail)) hlen.le
      generalize r.drop f.ws.length = r₁ at hr h₂
      subst hr
      have hlen₁ : r₁.length < (frame f.body).length := by
        simp only [Frame.bytes, List.length_append] at hpart; omega
      rw [loop_unfinished c f h₂ hlen₁ (by rw [hws]; exact hfits rfl)]
      exact ⟨fun _ => ⟨rfl, hdrop r₁, by simp⟩, fun hs => absurd hs.1 (by simp)⟩
    · -- a whole frame: route it and go on behind it
      obtain ⟨hr, h₂⟩ := split_beyond (h.trans (stream_cons f fs tail)) hlen
      generalize r.drop f.bytes.length = r' at hr h₂
      subst hr
      have hfuel' : r'.length < fuel := by
        have := f.bytes_length
        rw [List.length_append] at hfuel; omega
      obtain ⟨e, he, hloop⟩ := loop_whole c f r' (by rw [hws]; exact hfits rfl) fuel found
      obtain ⟨hok, hbad⟩ := ih (pre ++ f.bytes) r' fuel true h₂ hfuel'
      rw [hloop]
      rw [List.length_append] at hok hbad ⊢
      refine ⟨fun hs => ?_, fun hs => ?_⟩
      · obtain ⟨hserved, hrest, hfound⟩ := hok hs
        exact ⟨served_cons he hserved, by rw [← List.append_assoc]; exact hrest,
          hfound.trans (by simp)⟩
      · obtain ⟨e', he', hr⟩ := hbad hs
        exact ⟨e', List.mem_cons_of_mem _ he', hr⟩

theorem dispatchRequest_scan (htail : ∀ b ∈ tail, isspace b = true) {fs : List Frame} {buf : Bytes}
    (h : buf ++ future = stream fs tail) :
    let s := scan true 0 fs buf
    (¬ s.resync → Served c (dispatchRequest c buf).1 s.bodies ∧
      (dispatchRequest c buf).2.1 = s.rest ∧
      (dispatchRequest c buf).2.2 = !s.bodies.isEmpty) ∧
    (s.resync → ∃ e ∈ (dispatchRequest c buf).1, e.routed = none) := by
  simpa [dispatchRequest] using
    dispatchLoop_scan c htail fs [] buf (buf.length + 1) false h (by omega)

theorem no_resync_again {o : ℕ} {fs : List Frame} {r : Bytes} (h : ¬ (scan true o fs r).resync) :
    ¬ (scan true 0 (scan true o fs r).left (scan true o fs r).rest).resync := by
  rintro ⟨hlate, hcr⟩
  by_cases hl : (scan true o fs r).late = true
  · refine h ⟨hl, ?_⟩
    obtain ⟨b, hb, hbcr⟩ := List.any_eq_true.mp hcr
    exact List.any_eq_true.mpr ⟨b, (scan_rest_suffix true _ _ _).subset hb, hbcr⟩
  · rw [scan_again (by simpa using hl)] at hlate
    simp at hlate

theorem dispatchAll_succ (fuel : ℕ) (buf : Bytes) :
    dispatchAll c (fuel + 1) buf =
      if (dispatchRequest c buf).2.2 = true then
        ((dispatchRequest c buf).1 ++ (dispatchAll c fuel (dispatchRequest c buf).2.1).1,
          (dispatchAll c fuel (dispatchRequest c buf).2.1).2)
      else ((dispatchRequest c buf).1, (dispatchRequest c buf).2.1) := rfl

/-- Calling until nothing is found gets as far as `scanRead`. The induction is on the number
of calls; a call that finds a frame resumes at offset zero. -/
theorem dispatchAll_scan (fuel : ℕ) : ∀ {tail : Bytes} {fs : List Frame} {buf : Bytes},
    (∀ b ∈ tail, isspace b = true) → buf ++ future = stream fs tail → buf.length < fuel →
    ¬ (scan true 0 fs buf).resync →
    Served c (dispatchAll c fuel buf).1 (scanRead fs buf).bodies ∧
      (dispatchAll c fuel buf).2 = (scanRead fs buf).rest := by
  induction fuel with
  | zero => intro _ _ _ _ _ hlt; omega
  | succ fuel ih =>
    intro tail fs buf htail h hfuel hs
    obtain ⟨hserved, hrest, hfound⟩ := (dispatchRequest_scan c htail h).1 hs
    rw [dispatchAll_succ, hfound, hrest]
    by_cases hb : (scan true 0 fs buf).bodies = []
    · -- nothing found: the first frame is late, or no whole frame is there
      have hread : scanRead fs buf = scan true 0 fs buf := by
        unfold scanRead
        by_cases hl : (scan true 0 fs buf).late = true
        · simp [hl, hb]
        · simp only [hl, false_and, if_false, Bool.false_eq_true]
          exact scan_uncapped (by simpa using hl)
      rw [hread, if_neg (by simp [hb])]
      exact ⟨hserved, rfl⟩
    · rw [if_pos (by simpa using hb)]
      obtain ⟨-, tail', hsuf, h'⟩ := scan_account true fs 0 buf h
      have htail' : ∀ b ∈ tail', isspace b = true := fun b hb => htail b (hsuf.subset hb)
      have hlt := scan_rest_lt true hb
      obtain ⟨hserved', hrest'⟩ := ih htail' h' (by omega) (no_resync_again hs)
      have hread : scanRead fs buf = scan false 0 fs buf := by
        unfold scanRead; simp [hb]
      have hread' : scanRead (scan true 0 fs buf).left (scan true 0 fs buf).rest =
          scan false 0 (scan true 0 fs buf).left (scan true 0 fs buf).rest := by
        unfold scanRead
        rw [if_neg]
        rintro ⟨hl, hnil⟩
        exact scan_late_bodies (scan_fresh true fs 0 buf) hl hnil
      rw [hread'] at hserved' hrest'
      rw [hread, scan_resume (o := 0)]
      exact ⟨served_append hserved hserved', hrest'⟩

theorem dispatchAll_resync (fuel : ℕ) {fs : List Frame} {buf : Bytes}
    (htail : ∀ b ∈ tail, isspace b = true) (h : buf ++ future = stream fs tail)
    (hs : (scan true 0 fs buf).resync) :
    ∃ e ∈ (dispatchAll c (fuel + 1) buf).1, e.routed = none := by
  obtain ⟨e, he, hr⟩ := (dispatchRequest_scan c htail h).2 hs
  refine ⟨e, ?_, hr⟩
  rw [dispatchAll_succ]
  split_ifs
  · exact List.mem_append_left _ he
  · exact he

end Loop

theorem scanRead_account {tail future : Bytes} {fs : List Frame} {buf : Bytes}
    (h : buf ++ future = stream fs tail) :
    fs.map Frame.body = (scanRead fs buf).bodies ++ (scanRead fs buf).left.map Frame.body ∧
      ∃ tail', tail' <:+ tail ∧
        (scanRead fs buf).rest ++ future = stream (scanRead fs buf).left tail' := by
  unfold scanRead
  simp only
  split_ifs
  · exact scan_account true fs 0 buf h
  · exact scan_account false fs 0 buf h

theorem feed_smooth (c : ℤ) (chunks : List Bytes) :
    ∀ {tail : Bytes} {fs : List Frame} {buf : Bytes},
    (∀ b ∈ tail, isspace b = true) → buf ++ chunks.flatten = stream fs tail →
    (Served c (feed c buf chunks).1 (fs.map Frame.body) ↔ Smooth fs buf chunks) := by
  induction chunks with
  | nil =>
    intro tail fs buf _ _
    cases fs <;> simp [feed, Served, Smooth]
  | cons chunk chunks ih =>
    intro tail fs buf htail h
    have h' : (buf ++ chunk) ++ chunks.flatten = stream fs tail := by simpa using h
    by_cases hs : (scan true 0 fs (buf ++ chunk)).resync
    · obtain ⟨e, he, hr⟩ := dispatchAll_resync c (buf ++ chunk).length htail h' hs
      have hmem : e ∈ (feed c buf (chunk :: chunks)).1 := List.mem_append_left _ he
      exact iff_of_false (not_served_of_error hmem hr) fun hsm => hsm.1 hs
    · obtain ⟨hserved, hrest⟩ :=
        dispatchAll_scan c ((buf ++ chunk).length + 1) htail h' (by omega) hs
      change Served c (readChunk c buf chunk).1 _ at hserved
      obtain ⟨hbodies, tail', hsuf, h''⟩ := scanRead_account h'
      have hfeed : feed c buf (chunk :: chunks) =
          ((readChunk c buf chunk).1 ++ (feed c (readChunk c buf chunk).2 chunks).1,
            (feed c (readChunk c buf chunk).2 chunks).2) := rfl
      have hsplit : Served c (feed c buf (chunk :: chunks)).1 (fs.map Frame.body) ↔
          Served c (feed c (readChunk c buf chunk).2 chunks).1
            ((scanRead fs (buf ++ chunk)).left.map Frame.body) := by
        rw [hfeed, hbodies]
        constructor
        · intro hall
          unfold Served at hall
          simp only [List.map_append] at hall
          exact (List.append_inj hall
            (by simpa only [List.length_map] using served_length hserved)).2
        · exact served_append hserved
      rw [hsplit, show (readChunk c buf chunk).2 = (scanRead fs (buf ++ chunk)).rest from hrest,
        ih (fun b hb => htail b (hsuf.subset hb)) h'']
      exact ⟨fun hsm => ⟨hs, hsm⟩, fun hsm => hsm.2⟩

/-- A connection routes the frames of a request stream, in order and without an error, exactly
when the reads are smooth: at every read, no line end follows in the buffer from the first
frame whose length field ends beyond byte nine of the buffer, and the last read leaves no frame
behind for the white space in front of it. -/
theorem framing_served_iff (c : ℤ) (rs : Requests) (reads : Reads rs.bytes) :
    Served c (feed c [] reads.chunks).1 (rs.frames.map Frame.body) ↔
      Smooth rs.frames [] reads.chunks :=
  feed_smooth c reads.chunks rs.blank (by simpa [Requests.bytes] using reads.whole)

/-- Nine blanks, then an empty body: the one read leaves the frame behind. -/
def padded : Requests where
  frames := [⟨List.replicate 9 space, [], fun _ hb => List.eq_of_mem_replicate hb ▸ isspace_space,
    by decide⟩]
  tail := []
  blank := List.forall_mem_nil _

/-- The frame after the blanks is never routed. -/
theorem framing_padded_lost :
    ¬ ∀ (c : ℤ) (rs : Requests) (reads : Reads rs.bytes),
      Served c (feed c [] reads.chunks).1 (rs.frames.map Frame.body) := by
  intro h
  have := h 0 padded ⟨[padded.bytes], by decide, by decide⟩
  revert this
  decide

end Xaprun
