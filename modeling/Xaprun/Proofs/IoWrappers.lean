import Xaprun.Spec.IoWrappers

/-! Short transfers and interruptions. The loops of `io_write` and `io_read_exact` keep what they
have transferred, what is left to transfer and the rest of the stream in step; `io_read_append`
turns the error and the end of the stream of its three-way result into the wrong flags. -/

namespace Xaprun

open Frames

/-! Lists of attempts. -/

section Attempts

variable {cap k : ℕ} {as : List Attempt}

@[simp] theorem moved_nil : moved cap [] = 0 := rfl

@[simp] theorem moved_interrupted : moved cap (.interrupted :: as) = moved cap as := Nat.zero_add _

@[simp] theorem moved_moves : moved cap (.moves k :: as) = min (k + 1) cap + moved cap as := rfl

@[simp] theorem beforeFailure_nil : beforeFailure [] = [] := rfl

@[simp] theorem beforeFailure_failed : beforeFailure (.failed :: as) = [] := rfl

@[simp] theorem beforeFailure_interrupted :
    beforeFailure (.interrupted :: as) = .interrupted :: beforeFailure as := rfl

@[simp] theorem beforeFailure_moves :
    beforeFailure (.moves k :: as) = .moves k :: beforeFailure as := rfl

end Attempts

/-! `io_write`. -/

/-- What the loop accepts, from any offset on. -/
structure LoopWrites (d : Bytes) (data len : ℕ) (as : List Attempt) : Prop where
  returns : ∀ cap, len ≤ cap →
    ((ioWriteLoop d data len as).isSome ↔ len ≤ moved cap (beforeFailure as) ∨ .failed ∈ as)
  all : ∀ accepted, ioWriteLoop d data len as = some (accepted, true) → accepted = d.drop data
  error : ∀ accepted, ioWriteLoop d data len as = some (accepted, false) →
    accepted <+: d.drop data ∧ accepted ≠ d.drop data

theorem substr_append_drop (d : Bytes) (data c : ℕ) :
    substr d data c ++ d.drop (data + c) = d.drop data := by
  rw [substr, ← List.drop_drop, List.take_append_drop]

theorem loopWrites (d : Bytes) (as : List Attempt) :
    ∀ data len, data + len = d.length → LoopWrites d data len as := by
  induction as with
  | nil =>
    intro data len hlen
    cases len with
    | zero =>
      have hend : d.drop data = [] := List.drop_eq_nil_of_le (by omega)
      refine ⟨fun cap _ => by simp [ioWriteLoop], fun accepted h => ?_, fun accepted h => ?_⟩
      · rw [hend]
        cases h
        rfl
      · cases h
    | succ len =>
      refine ⟨fun cap _ => by simp [ioWriteLoop], fun accepted h => ?_, fun accepted h => ?_⟩
      · cases h
      · cases h
  | cons a as ih =>
    intro data len hlen
    cases len with
    | zero =>
      have hend : d.drop data = [] := List.drop_eq_nil_of_le (by omega)
      refine ⟨fun cap _ => by simp [ioWriteLoop], fun accepted h => ?_, fun accepted h => ?_⟩
      · rw [hend]
        cases h
        rfl
      · cases h
    | succ len =>
      cases a with
      | interrupted =>
        have hloop := ih data (len + 1) hlen
        refine ⟨fun cap hcap => ?_, hloop.all, hloop.error⟩
        rw [ioWriteLoop, hloop.returns cap hcap, beforeFailure_interrupted, moved_interrupted]
        simp
      | failed =>
        refine ⟨fun cap _ => by simp [ioWriteLoop], fun accepted h => ?_, fun accepted h => ?_⟩
        · cases h
        · cases h
          refine ⟨List.nil_prefix, fun hend => ?_⟩
          have := List.drop_eq_nil_iff.mp hend.symm
          omega
      | moves k =>
        have hloop := ih (data + min (k + 1) (len + 1)) (len + 1 - min (k + 1) (len + 1)) (by omega)
        have hcut := substr_append_drop d data (min (k + 1) (len + 1))
        refine ⟨fun cap hcap => ?_, fun accepted h => ?_, fun accepted h => ?_⟩
        · rw [ioWriteLoop, Option.isSome_map, hloop.returns cap (by omega), beforeFailure_moves,
            moved_moves]
          simp only [List.mem_cons, reduceCtorEq, false_or]
          apply or_congr_left
          omega
        · obtain ⟨⟨rest, flag⟩, hrest, heq⟩ := Option.map_eq_some_iff.mp h
          obtain ⟨rfl, rfl⟩ := Prod.mk.inj heq
          rw [hloop.all rest hrest, hcut]
        · obtain ⟨⟨rest, flag⟩, hrest, heq⟩ := Option.map_eq_some_iff.mp h
          obtain ⟨rfl, rfl⟩ := Prod.mk.inj heq
          obtain ⟨hpre, hne⟩ := hloop.error rest hrest
          rw [← hcut]
          exact ⟨List.prefix_append_right_inj _ |>.mpr hpre, fun heq =>
            hne (List.append_cancel_left heq)⟩

theorem writesAll (d : Bytes) (as : List Attempt) : WritesAll d as :=
  have hloop := loopWrites d as 0 d.length (Nat.zero_add _)
  ⟨hloop.returns _ le_rfl, hloop.all, hloop.error⟩

/-! `io_read_exact`. -/

section ReadToEnd

variable {stream : Bytes} {n k : ℕ} {as : List Attempt}

theorem not_readToEnd_nil (stream : Bytes) (h : 0 < n) : ¬ ReadToEnd stream n [] := by
  rintro (hall | ⟨before, k, after, heq, -⟩)
  · rw [moved_nil] at hall
    omega
  · simp at heq

theorem readToEnd_interrupted :
    ReadToEnd stream n (.interrupted :: as) ↔ ReadToEnd stream n as := by
  unfold ReadToEnd
  rw [moved_interrupted]
  refine or_congr_right ⟨?_, ?_⟩
  · rintro ⟨before, k, after, heq, hle⟩
    cases before with
    | nil => cases heq
    | cons b before =>
      obtain ⟨rfl, rfl⟩ := List.cons.inj heq
      exact ⟨before, k, after, rfl, by rwa [moved_interrupted] at hle⟩
  · rintro ⟨before, k, after, rfl, hle⟩
    exact ⟨.interrupted :: before, k, after, rfl, by rwa [moved_interrupted]⟩

theorem length_readBytes (stream : Bytes) (count k : ℕ) :
    (readBytes stream count k).length = min (min (k + 1) count) stream.length :=
  List.length_take

theorem readToEnd_eof : ReadToEnd [] n (.moves k :: as) := .inr ⟨[], k, as, rfl, Nat.zero_le _⟩

theorem readToEnd_moves (as : List Attempt) {c : ℕ}
    (hc : c = min (min (k + 1) (min n CHUNKSIZE)) stream.length) (hpos : 0 < c) (hlt : c < n) :
    ReadToEnd stream n (.moves k :: as) ↔ ReadToEnd (stream.drop c) (n - c) as := by
  unfold ReadToEnd
  rw [moved_moves, List.length_drop]
  refine or_congr (by omega) ⟨?_, ?_⟩
  · rintro ⟨before, k', after, heq, hle⟩
    cases before with
    | nil =>
      rw [moved_nil] at hle
      omega
    | cons b before =>
      obtain ⟨rfl, rfl⟩ := List.cons.inj heq
      rw [moved_moves] at hle
      exact ⟨before, k', after, rfl, by omega⟩
  · rintro ⟨before, k', after, rfl, hle⟩
    exact ⟨.moves k :: before, k', after, rfl, by rw [moved_moves]; omega⟩

theorem readToEnd_last {c : ℕ} (hc : c = min (min (k + 1) (min n CHUNKSIZE)) stream.length)
    (hle : n ≤ c) :
    ReadToEnd stream n (.moves k :: as) := .inl (by rw [moved_moves]; omega)

end ReadToEnd

theorem readBytes_prefix (stream : Bytes) (count k : ℕ) :
    readBytes stream count k <+: stream := List.take_prefix _ _

theorem chunksize_pos : 0 < CHUNKSIZE := by decide

theorem ioReadExactLoop_moves (toRead : ℕ) (result stream : Bytes) (remaining k : ℕ)
    (as : List Attempt) :
    let buf := readBytes stream (min (remaining + 1) CHUNKSIZE) k
    ioReadExactLoop toRead result stream (remaining + 1) (.moves k :: as) =
      if buf = [] then some ⟨result, stream, true⟩
      else if toRead ≤ (result ++ buf).length
        then some ⟨result ++ buf, stream.drop buf.length, true⟩
      else ioReadExactLoop toRead (result ++ buf) (stream.drop buf.length)
        (remaining + 1 - buf.length) as := by
  rw [ioReadExactLoop]
  simp only [List.length_eq_zero_iff]

/-- What the loop reads when it has read `result` and wants `remaining` more bytes. -/
structure LoopReads (toRead : ℕ) (result stream : Bytes) (remaining : ℕ) (as : List Attempt) :
    Prop where
  returns : (ioReadExactLoop toRead result stream remaining as).isSome ↔
    ReadToEnd stream remaining (beforeFailure as) ∨ .failed ∈ as
  fails : ∀ r, ioReadExactLoop toRead result stream remaining as = some r →
    (r.returned = false ↔ ¬ ReadToEnd stream remaining (beforeFailure as))
  exact : ∀ r, ioReadExactLoop toRead result stream remaining as = some r → r.returned = true →
    r.result = result ++ stream.take remaining
  taken : ∀ r, ioReadExactLoop toRead result stream remaining as = some r →
    r.result ++ r.stream = result ++ stream ∧ r.result.length ≤ toRead

theorem LoopReads.of_done {toRead remaining : ℕ} {result stream : Bytes} (more left : Bytes)
    {as : List Attempt}
    (heq : ioReadExactLoop toRead result stream remaining as = some ⟨result ++ more, left, true⟩)
    (hend : ReadToEnd stream remaining (beforeFailure as)) (hmore : more = stream.take remaining)
    (hleft : more ++ left = stream) (hlen : (result ++ more).length ≤ toRead) :
    LoopReads toRead result stream remaining as := by
  have hr : ∀ r, ioReadExactLoop toRead result stream remaining as = some r →
      r = ⟨result ++ more, left, true⟩ :=
    fun r h => (Option.some.inj (heq.symm.trans h)).symm
  refine ⟨by simp [heq, hend], fun r h => ?_, fun r h _ => ?_, fun r h => ?_⟩
  · simp [hr r h, hend]
  · rw [hr r h, hmore]
  · rw [hr r h]
    exact ⟨by rw [List.append_assoc, hleft], hlen⟩

theorem loopReads (toRead : ℕ) (as : List Attempt) :
    ∀ result stream remaining, result.length + remaining = toRead →
      LoopReads toRead result stream remaining as := by
  have hnone : ∀ (as : List Attempt) (result stream : Bytes), result.length + 0 = toRead →
      LoopReads toRead result stream 0 as := by
    intro as result stream hlen
    refine .of_done [] stream ?_ (.inl (Nat.zero_le _)) rfl rfl (by simp; omega)
    rw [ioReadExactLoop, List.append_nil]
  induction as with
  | nil =>
    intro result stream remaining hlen
    cases remaining with
    | zero => exact hnone [] result stream hlen
    | succ remaining =>
      have hend := not_readToEnd_nil stream (Nat.succ_pos remaining)
      refine ⟨by simp [ioReadExactLoop, hend], fun r h => ?_, fun r h => ?_, fun r h => ?_⟩
      all_goals cases h
  | cons a as ih =>
    intro result stream remaining hlen
    cases remaining with
    | zero => exact hnone (a :: as) result stream hlen
    | succ remaining =>
      cases a with
      | interrupted =>
        have hloop := ih result stream (remaining + 1) hlen
        have hbefore : ReadToEnd stream (remaining + 1) (beforeFailure (.interrupted :: as)) ↔
            ReadToEnd stream (remaining + 1) (beforeFailure as) := by
          rw [beforeFailure_interrupted, readToEnd_interrupted]
        refine ⟨?_, fun r h => ?_, hloop.exact, hloop.taken⟩
        · rw [ioReadExactLoop, hloop.returns, hbefore]
          simp
        · rw [hloop.fails r h, hbefore]
      | failed =>
        have hend := not_readToEnd_nil stream (Nat.succ_pos remaining)
        refine ⟨by simp [ioReadExactLoop], fun r h => ?_, fun r h htrue => ?_, fun r h => ?_⟩
        all_goals
          rw [ioReadExactLoop] at h
          cases h
        · simp [hend]
        · cases htrue
        · exact ⟨rfl, Nat.le.intro hlen⟩
      | moves k =>
        obtain ⟨left, hstream⟩ := readBytes_prefix stream (min (remaining + 1) CHUNKSIZE) k
        have hlength := length_readBytes stream (min (remaining + 1) CHUNKSIZE) k
        have hround := ioReadExactLoop_moves toRead result stream remaining k as
        generalize readBytes stream (min (remaining + 1) CHUNKSIZE) k = buf
          at hstream hlength hround
        have hdrop : stream.drop buf.length = left := by rw [← hstream, List.drop_left]
        simp only [hdrop] at hround
        by_cases hzero : buf = []
        · -- the end of the stream
          rw [if_pos hzero] at hround
          have hchunk := chunksize_pos
          obtain rfl : stream = [] := by
            rw [hzero, List.length_nil] at hlength
            exact List.eq_nil_of_length_eq_zero (by omega)
          refine .of_done [] [] (hround.trans (by rw [List.append_nil])) readToEnd_eof rfl rfl ?_
          rw [List.append_nil]
          exact Nat.le.intro hlen
        · rw [if_neg hzero] at hround
          have hpos := List.length_pos_iff.mpr hzero
          have hmore : (result ++ buf).length = result.length + buf.length := List.length_append
          by_cases hfull : toRead ≤ (result ++ buf).length
          · -- as many bytes as asked for
            rw [if_pos hfull] at hround
            refine .of_done _ _ hround (readToEnd_last hlength (by omega)) ?_ hstream ?_
            · rw [← hstream, List.take_append_of_le_length (by omega),
                List.take_of_length_le (by omega)]
            · omega
          · rw [if_neg hfull] at hround
            have hloop := ih (result ++ buf) left (remaining + 1 - buf.length) (by omega)
            have hend := readToEnd_moves (beforeFailure as) hlength hpos (by omega)
            rw [hdrop] at hend
            refine ⟨?_, fun r h => ?_, fun r h htrue => ?_, fun r h => ?_⟩
            · rw [hround, hloop.returns, beforeFailure_moves, hend]
              simp
            · rw [hround] at h
              rw [hloop.fails r h, beforeFailure_moves, hend]
            · rw [hround] at h
              have htake : buf.take (remaining + 1) = buf := List.take_of_length_le (by omega)
              rw [hloop.exact r h htrue, List.append_assoc, ← hstream, List.take_append, htake]
            · rw [hround] at h
              rw [← hstream, ← List.append_assoc]
              exact hloop.taken r h

theorem readsExactly (stream : Bytes) (toRead : ℕ) (as : List Attempt) :
    ReadsExactly stream toRead as :=
  have hloop := loopReads toRead as [] stream toRead (by simp)
  ⟨hloop.returns, hloop.fails, hloop.exact, hloop.taken⟩

/-- Everything that `io_write` has been given is accepted before it returns true, and
`io_read_exact` reads exactly what is asked for, or all there is. What has been written to an empty
FIFO is read from it again, however either side is cut into pieces and interrupted. -/
theorem transfers_exact (d stream : Bytes) (toRead : ℕ) (writes reads : List Attempt) :
    WritesAll d writes ∧ ReadsExactly stream toRead reads ∧
      ∀ accepted r, ioWrite d writes = some (accepted, true) →
        ioReadExact accepted d.length reads = some r →
        (r.returned = true → r.result = d) ∧ (.failed ∉ reads → r.returned = true) := by
  refine ⟨writesAll d writes, readsExactly stream toRead reads, fun accepted r hwrite hread => ?_⟩
  obtain rfl := (writesAll d writes).all accepted hwrite
  have hexact := readsExactly accepted accepted.length reads
  constructor
  · intro htrue
    rw [hexact.exact r hread htrue, List.take_length]
  · intro hnone
    have hsome : (ioReadExact accepted accepted.length reads).isSome := by rw [hread]; rfl
    have hend := (hexact.returns.mp hsome).resolve_right hnone
    by_contra hfalse
    exact (hexact.fails r hread).mp (Bool.eq_false_of_not_eq_true hfalse) hend

/-! `io_read_append`. -/

section Append

variable {result stream : Bytes} {maxToRead : ℕ}

theorem ioReadAppend_interrupted (n : ℕ) (as : List Attempt) :
    ioReadAppend result stream maxToRead (.replicate n .interrupted ++ as) =
      ioReadAppend result stream maxToRead as := by
  induction n with
  | zero => rfl
  | succ n ih => rw [List.replicate_succ, List.cons_append, ioReadAppend, ih]

theorem ioReadAppend_moves (k : ℕ) :
    ioReadAppend result stream maxToRead [.moves k] =
      some ⟨result ++ readBytes stream maxToRead k,
        stream.drop (readBytes stream maxToRead k).length,
        toInt (readBytes stream maxToRead k).length⟩ := by
  rw [ioReadAppend]
  split_ifs with hzero
  · rw [hzero, List.length_eq_zero_iff.mp hzero, List.append_nil, List.drop_zero]
  · rfl

theorem toInt_eq_iff (n : ℕ) : toInt n = n ↔ n < 2 ^ 31 := by
  unfold toInt
  rw [Int.bmod_def]
  split_ifs <;> omega

theorem readBytes_eq_nil {count k : ℕ} (hcount : 0 < count) :
    readBytes stream count k = [] ↔ stream = [] := by
  rw [← List.length_eq_zero_iff, length_readBytes, ← List.length_eq_zero_iff (l := stream)]
  omega

theorem length_readBytes_chunk (stream : Bytes) (k : ℕ) :
    (readBytes stream CHUNKSIZE k).length ≤ 4096 := by
  rw [length_readBytes]
  have hchunk : CHUNKSIZE = 4096 := rfl
  omega

theorem ioReadAppendChunk_moves (n k : ℕ) :
    ioReadAppendChunk result stream (.replicate n .interrupted ++ [.moves k]) =
      some (result ++ readBytes stream CHUNKSIZE k, decide (stream ≠ [])) := by
  have hlen := length_readBytes_chunk stream k
  have hint : toInt (readBytes stream CHUNKSIZE k).length = (readBytes stream CHUNKSIZE k).length :=
    (toInt_eq_iff _).mpr (by omega)
  rw [ioReadAppendChunk, ioReadAppend_interrupted, ioReadAppend_moves, Option.map_some, hint]
  simp only [ne_eq, Nat.cast_eq_zero, List.length_eq_zero_iff, readBytes_eq_nil chunksize_pos]

theorem ioReadAppendChunk_failed (n : ℕ) :
    ioReadAppendChunk result stream (.replicate n .interrupted ++ [.failed]) =
      some (result, true) := by
  rw [ioReadAppendChunk, ioReadAppend_interrupted]
  rfl

/-- `io_read_append` does what its comment says exactly when it has read something. The end of the
stream and an error get each other's flag. -/
theorem read_append_documented_iff (interruptions : ℕ) {last : Attempt}
    (hlast : last ≠ .interrupted) :
    AppendsAsDocumented result stream maxToRead interruptions last ↔
      (∃ k, last = .moves k) ∧ stream ≠ [] ∧ (last.bytes stream maxToRead).length < 2 ^ 31 := by
  cases last with
  | interrupted => exact absurd rfl hlast
  | failed =>
    refine iff_of_false (fun h => ?_) (by simp)
    obtain ⟨returned, hchunk, hflag⟩ := h.chunk
    rw [ioReadAppendChunk_failed] at hchunk
    have htrue : true = returned := congrArg Prod.snd (Option.some.inj hchunk)
    rw [← htrue] at hflag
    exact absurd (hflag.mpr rfl) (by decide)
  | moves k =>
    have hmoves : Attempt.moves k ≠ .failed := by simp
    have hbytes : (Attempt.moves k).bytes stream maxToRead = readBytes stream maxToRead k := rfl
    have hint := toInt_eq_iff (readBytes stream maxToRead k).length
    rw [hbytes]
    constructor
    · intro h
      refine ⟨⟨k, rfl⟩, fun hempty => ?_, ?_⟩
      · obtain ⟨returned, hchunk, hflag⟩ := h.chunk
        rw [ioReadAppendChunk_moves, hempty] at hchunk
        have hfalse : false = returned := congrArg Prod.snd (Option.some.inj hchunk)
        cases hflag.mp hfalse.symm
      · obtain ⟨r, hr, -, -, hcount⟩ := h.gains
        rw [ioReadAppend_interrupted, ioReadAppend_moves] at hr
        obtain rfl := Option.some.inj hr
        rw [if_neg hmoves, hbytes] at hcount
        dsimp only at hcount
        exact hint.mp hcount
    · rintro ⟨-, hne, hlt⟩
      have hflag : decide (stream ≠ []) = true := decide_eq_true hne
      obtain ⟨left, hleft⟩ := readBytes_prefix stream maxToRead k
      refine ⟨⟨_, (ioReadAppend_interrupted interruptions _).trans (ioReadAppend_moves k),
        rfl, ?_, ?_⟩,
        ⟨_, ioReadAppendChunk_moves _ k, ?_⟩, ?_⟩
      · change stream = readBytes stream maxToRead k ++ stream.drop
          (readBytes stream maxToRead k).length
        generalize readBytes stream maxToRead k = buf at hleft
        rw [← hleft, List.drop_left]
      · rw [if_neg hmoves, hbytes]
        dsimp only
        exact hint.mpr hlt
      · rw [hflag]
        exact iff_of_false (by decide) hmoves
      · rw [checkNudge, ioReadAppendChunk_moves, hflag, Option.map_some, if_neg (by simp)]
        refine ⟨_, rfl, iff_of_false ?_ hmoves⟩
        split_ifs <;> decide

end Append

/-- Three bytes after two interruptions. -/
theorem read_append_documented_threeBytes :
    AppendsAsDocumented (text "a") (text "bcd") 65536 2 (.moves 6) :=
  (read_append_documented_iff 2 (by decide)).mpr ⟨⟨6, rfl⟩, by decide, by decide⟩

/-- The end of the stream stops the main loop. -/
theorem read_append_eof :
    ¬ ∀ result stream maxToRead interruptions last, last ≠ .interrupted →
      AppendsAsDocumented result stream maxToRead interruptions last := by
  intro h
  obtain ⟨nudged, hnudged, hstops⟩ := (h [] [] 1 0 (.moves 0) (by decide)).nudge
  have hsysError : Nudged.sysError = nudged := Option.some.inj hnudged
  cases hstops.mp hsysError.symm

end Xaprun
