import Xaprun.Sanity.Targets
import Xaprun.Spec.Quoting

/-! Percent-quoting. `urlquote` leaves the table of digits exactly on the bytes that are
negative as `char`, `urlunquote` makes the same wrong byte of an escape whichever side has
written it, and the name of a database reaches the indexer quoted and behind an underscore. -/

namespace Xaprun

open Frames Percent

/-! `urlquote`. -/

theorem schar_of_lt {ch : UInt8} (h : ch.toNat < 128) : schar ch = ch.toNat := if_pos h

theorem schar_neg {ch : UInt8} (h : ¬ ch.toNat < 128) : schar ch < 0 := by
  have := ch.toNat_lt
  unfold schar
  rw [if_neg h]
  omega

theorem unreserved_lt {ch : UInt8} (h : unreserved ch = true) : ch.toNat < 128 := by
  simp only [unreserved, isalnum, isdigit, Bool.or_eq_true, Bool.and_eq_true, decide_eq_true_eq]
    at h
  rcases h with (((⟨-, h⟩ | ⟨-, h⟩) | ⟨-, h⟩) | rfl) | rfl | rfl
  all_goals first | omega | decide

theorem index_neg {n : ℤ} (h : n < 0) : n.tdiv 16 < 0 ∨ n.tmod 16 < 0 := by
  have := Int.mul_tdiv_add_tmod n 16
  omega

theorem hexAt_neg {i : ℤ} (h : i < 0) : hexAt i = none := if_neg (by omega)

theorem hexAt_natCast (n : ℕ) : hexAt n = hexTable[n]? := by
  rw [hexAt, if_pos (by omega), Int.toNat_natCast]

theorem urlquoteByte_none {ch : UInt8} (h : ¬ ch.toNat < 128) : urlquoteByte ch = none := by
  have hreserved : ¬ unreserved ch = true := fun hu => h (unreserved_lt hu)
  unfold urlquoteByte
  rw [if_neg hreserved]
  rcases index_neg (schar_neg h) with hi | hi
  · rw [hexAt_neg hi]
    rfl
  · rw [hexAt_neg hi]
    cases hexAt ((schar ch).tdiv 16) <;> rfl

def lowerHex (n : ℕ) : UInt8 := hexTable.getD n 0

def quotePiece (ch : UInt8) : Bytes :=
  if unreserved ch then [ch] else [percent, lowerHex (ch.toNat / 16), lowerHex (ch.toNat % 16)]

theorem hexTable_get {n : ℕ} (h : n < 16) : hexTable[n]? = some (lowerHex n) := by
  have hlen : n < hexTable.length := h
  rw [lowerHex, List.getD_eq_getElem?_getD, List.getElem?_eq_getElem hlen]
  rfl

theorem indices_of_lt {ch : UInt8} (h : ch.toNat < 128) :
    (schar ch).tdiv 16 = (ch.toNat / 16 : ℕ) ∧ (schar ch).tmod 16 = (ch.toNat % 16 : ℕ) := by
  rw [schar_of_lt h]
  exact ⟨Int.ofNat_tdiv _ _, Int.ofNat_tmod _ _⟩

theorem urlquoteByte_some {ch : UInt8} (h : ch.toNat < 128) :
    urlquoteByte ch = some (quotePiece ch) := by
  unfold urlquoteByte quotePiece
  obtain ⟨hdiv, hmod⟩ := indices_of_lt h
  rw [hdiv, hmod, hexAt_natCast, hexAt_natCast, hexTable_get (toNat_div_lt ch),
    hexTable_get (Nat.mod_lt _ (by omega))]
  split_ifs <;> rfl

theorem urlquote_some {s : Bytes} (h : ∀ b ∈ s, b.toNat < 128) :
    urlquote s = some (s.map quotePiece).flatten := by
  induction s with
  | nil => rfl
  | cons b s ih =>
    have hrest := ih fun c hc => h c (List.mem_cons_of_mem b hc)
    rw [urlquote, urlquoteByte_some (h b List.mem_cons_self), hrest]
    rfl

theorem urlquote_none {s : Bytes} (h : ¬ ∀ b ∈ s, b.toNat < 128) : urlquote s = none := by
  induction s with
  | nil => simp at h
  | cons b s ih =>
    rw [urlquote]
    by_cases hb : b.toNat < 128
    · have hrest : ¬ ∀ c ∈ s, c.toNat < 128 := fun hall => h (List.forall_mem_cons.mpr ⟨hb, hall⟩)
      rw [ih hrest]
      cases urlquoteByte b <;> rfl
    · rw [urlquoteByte_none hb]
      rfl

theorem hexVal_lowerHex {n : ℕ} (h : n < 16) : hexVal (lowerHex n) = some n := by
  interval_cases n <;> rfl

theorem quoted_quotePiece (b : UInt8) : Quoted b (quotePiece b) := by
  unfold quotePiece
  split_ifs with hb
  · exact .inl ⟨hb, rfl⟩
  · refine .inr ⟨_, _, ?_, ?_, rfl⟩
    · rw [hexVal_lowerHex (toNat_div_lt b)]
      rfl
    · rw [hexVal_lowerHex (Nat.mod_lt _ (by omega))]
      rfl

theorem mem_of_quoted {b c : UInt8} {piece : Bytes} (h : Quoted b piece) (hc : c ∈ piece) :
    unreserved c = true ∨ c = percent ∨ (hexVal c).isSome := by
  rcases h with ⟨hb, rfl⟩ | ⟨x, y, hx, hy, rfl⟩
  · rw [List.mem_singleton.mp hc]
    exact .inl hb
  · simp only [List.mem_cons, List.not_mem_nil, or_false] at hc
    rcases hc with rfl | rfl | rfl
    · exact .inr (.inl rfl)
    · exact .inr (.inr hx)
    · exact .inr (.inr hy)

/-- Quoting stays inside the table of digits and gives a clean result exactly where no byte is
negative as `char`. -/
theorem urlquote_clean_iff (s : Bytes) : QuotesCleanly s ↔ ∀ b ∈ s, b.toNat < 128 := by
  constructor
  · intro h
    by_contra hneg
    obtain ⟨ps, -, hsome⟩ := h.pieces
    rw [urlquote_none hneg] at hsome
    cases hsome
  · intro hlt
    have hquoted : List.Forall₂ Quoted s (s.map quotePiece) := by
      rw [List.forall₂_map_right_iff]
      exact List.forall₂_same.mpr fun b _ => quoted_quotePiece b
    refine ⟨fun i hi => ?_, ⟨_, hquoted, urlquote_some hlt⟩, fun r hr => ?_⟩
    · obtain ⟨b, hb, hi⟩ := List.mem_flatMap.mp hi
      obtain ⟨hdiv, hmod⟩ := indices_of_lt (hlt b hb)
      unfold hexIndices at hi
      split_ifs at hi
      · cases hi
      · have := toNat_div_lt b
        rw [hdiv, hmod] at hi
        simp only [List.mem_cons, List.not_mem_nil, or_false] at hi
        omega
    · rw [urlquote_some hlt] at hr
      obtain rfl := Option.some.inj hr
      have hclean : ∀ c, unreserved c = false → c ≠ percent → hexVal c = none →
          c ∉ (s.map quotePiece).flatten := by
        intro c hu hp hx hmem
        obtain ⟨piece, hpiece, hc⟩ := List.mem_flatten.mp hmem
        obtain ⟨b, -, rfl⟩ := List.mem_map.mp hpiece
        have := mem_of_quoted (quoted_quotePiece b) hc
        simp [hu, hp, hx] at this
      exact ⟨hclean _ (by decide) (by decide) (by decide),
        hclean _ (by decide) (by decide) (by decide),
        hclean _ (by decide) (by decide) (by decide), hclean _ (by decide) (by decide) (by decide)⟩

/-- The byte 0xFF is -1 as `char`: the second index is -1. -/
theorem urlquote_negative : ¬ ∀ s, QuotesCleanly s := by
  intro h
  have hindex := (h [255]).indices (-1) (by decide)
  omega

/-! `urlunquote`. -/

/-- The loop of `urlunquote`, by the bytes that are ahead of it. -/
def unquoteAhead : Bytes → Bytes
  | ch :: x :: y :: rest =>
    if ch = percent then UInt8.ofNat (hexToInt x * 16 + hexToInt x) :: unquoteAhead rest
    else ch :: unquoteAhead (x :: y :: rest)
  | bs => bs

theorem unquoteAhead_cons {ch : UInt8} (h : ch ≠ percent) (rest : Bytes) :
    unquoteAhead (ch :: rest) = ch :: unquoteAhead rest := by
  cases rest with
  | nil => rfl
  | cons x rest =>
    cases rest with
    | nil => rfl
    | cons y rest => rw [unquoteAhead, if_neg h]

theorem urlunquoteLoop_eq (value : Bytes) (fuel : ℕ) :
    ∀ i, value.length - i ≤ fuel → urlunquoteLoop value fuel i = unquoteAhead (value.drop i) := by
  induction fuel with
  | zero =>
    intro i hi
    rw [List.drop_eq_nil_of_le (by omega)]
    rfl
  | succ fuel ih =>
    intro i hi
    unfold urlunquoteLoop
    by_cases hlt : i < value.length
    · rw [List.getElem?_eq_getElem hlt, List.drop_eq_getElem_cons hlt]
      dsimp only
      split_ifs with hp hshort
      · -- too near to the end for an escape
        rw [substr, List.take_of_length_le (by rw [List.length_drop]),
          List.drop_eq_getElem_cons hlt]
        cases hrest : value.drop (i + 1) with
        | nil => rfl
        | cons x rest =>
          have hlen := congrArg List.length hrest
          rw [List.length_drop, List.length_cons] at hlen
          obtain rfl := List.eq_nil_of_length_eq_zero (l := rest) (by omega)
          rfl
      · rw [List.drop_eq_getElem_cons (show i + 1 < value.length by omega),
          List.drop_eq_getElem_cons (show i + 1 + 1 < value.length by omega), hp, unquoteAhead,
            if_pos rfl,
          ih (i + 3) (by omega), List.getD_eq_getElem?_getD, List.getElem?_eq_getElem (by omega)]
        rfl
      · rw [unquoteAhead_cons hp, ih (i + 1) (by omega)]
    · rw [List.getElem?_eq_none (by omega), List.drop_eq_nil_of_le (by omega)]
      rfl

theorem urlunquote_eq (value : Bytes) : urlunquote value = unquoteAhead value :=
  urlunquoteLoop_eq value value.length 0 (by omega)

theorem urlunquote_cons {ch : UInt8} (h : ch ≠ percent) (rest : Bytes) :
    urlunquote (ch :: rest) = ch :: urlunquote rest := by
  rw [urlunquote_eq, urlunquote_eq, unquoteAhead_cons h]

/-- Of the two digits of an escape only the first is looked at. -/
theorem urlunquote_escape (x y : UInt8) (rest : Bytes) :
    urlunquote (percent :: x :: y :: rest) =
      UInt8.ofNat (hexToInt x * 16 + hexToInt x) :: urlunquote rest := by
  rw [urlunquote_eq, urlunquote_eq, unquoteAhead, if_pos rfl]

theorem hexToInt_upperHex {n : ℕ} (h : n < 16) : hexToInt (Percent.upperHex n) = n % 10 := by
  interval_cases n <;> rfl

theorem hexToInt_lowerHex {n : ℕ} (h : n < 16) : hexToInt (lowerHex n) = n % 10 := by
  interval_cases n <;> rfl

/-- The byte that comes back for a quoted one. -/
def requoted (b : UInt8) : UInt8 :=
  if unreserved b then b else UInt8.ofNat (b.toNat / 16 % 10 * 16 + b.toNat / 16 % 10)

theorem urlunquote_quotePiece (b : UInt8) (rest : Bytes) :
    urlunquote (quotePiece b ++ rest) = requoted b :: urlunquote rest := by
  unfold quotePiece requoted
  split_ifs with hb
  · exact urlunquote_cons (by rintro rfl; revert hb; decide) rest
  · rw [← hexToInt_lowerHex (toNat_div_lt b)]
    exact urlunquote_escape _ _ rest

theorem urlunquote_encodeByte (b : UInt8) (rest : Bytes) :
    urlunquote (encodeByte unreserved b ++ rest) = requoted b :: urlunquote rest := by
  unfold encodeByte requoted
  split_ifs with hb
  · exact urlunquote_cons (by rintro rfl; revert hb; decide) rest
  · rw [← hexToInt_upperHex (toNat_div_lt b)]
    exact urlunquote_escape _ _ rest

theorem urlunquote_pieces {piece : UInt8 → Bytes}
    (h : ∀ b rest, urlunquote (piece b ++ rest) = requoted b :: urlunquote rest) (s : Bytes) :
    urlunquote (s.map piece).flatten = s.map requoted := by
  induction s with
  | nil => rfl
  | cons b s ih => rw [List.map_cons, List.flatten_cons, h, ih, List.map_cons]

theorem map_requoted_iff (s : Bytes) : s.map requoted = s ↔ ∀ b ∈ s, requoted b = b := by
  rw [← List.map_id s, List.map_map, List.map_inj_left]
  simp

/-- The bytes that survive although they are escaped: their two digits are the same decimal
digit. -/
def twins : List UInt8 := [0x00, 0x11, 0x22, 0x88, 0x99]

theorem requoted_iff (b : UInt8) : requoted b = b ↔ unreserved b = true ∨ b ∈ twins := by
  have hall : ∀ n < 256, requoted (UInt8.ofNat n) = UInt8.ofNat n ↔
      unreserved (UInt8.ofNat n) = true ∨ UInt8.ofNat n ∈ twins := by decide +kernel
  simpa using hall b.toNat b.toNat_lt

/-- The digits that `hex_to_int` reads right, and those that it takes to be ten less. -/
theorem hexVal_cases {x : UInt8} {h : ℕ} (hx : hexVal x = some h) :
    (isdigit x = true ∧ x.toNat = 48 + h ∧ h < 10 ∧ hexToInt x = h) ∨
      (isdigit x = false ∧ 10 ≤ h ∧ h < 16 ∧ hexToInt x = h - 10) := by
  have hlt := hexVal_lt hx
  unfold hexVal at hx
  unfold hexToInt
  split_ifs at hx ⊢ with hdigit hupper hlower
  · have hrange := hdigit
    simp only [isdigit, Bool.and_eq_true, decide_eq_true_eq] at hrange
    cases hx
    exact .inl ⟨hdigit, by omega, by omega, rfl⟩
  · cases hx
    exact .inr ⟨Bool.eq_false_of_not_eq_true hdigit, by omega, hlt, by omega⟩
  · cases hx
    exact .inr ⟨Bool.eq_false_of_not_eq_true hdigit, by omega, hlt, by omega⟩

/-- An escape decodes to its byte exactly when its digits are the same decimal digit. -/
theorem urlunquote_escape_iff {x y : UInt8} {h l : ℕ} (hx : hexVal x = some h)
    (hy : hexVal y = some l) (rest : Bytes) :
    urlunquote (percent :: x :: y :: rest) = UInt8.ofNat (16 * h + l) :: urlunquote rest ↔
      isdigit x = true ∧ y = x := by
  have hl := hexVal_lt hy
  rw [urlunquote_escape, List.cons_eq_cons, and_iff_left rfl]
  have hbyte : ∀ m n : ℕ, m < 256 → n < 256 → (UInt8.ofNat m = UInt8.ofNat n ↔ m = n) := by
    intro m n hm hn
    rw [← UInt8.toNat_inj, UInt8.toNat_ofNat_of_lt' hm, UInt8.toNat_ofNat_of_lt' hn]
  rcases hexVal_cases hx with ⟨hdigit, hval, hten, hint⟩ | ⟨hdigit, hten, hlt, hint⟩
  · rw [hint, hbyte _ _ (by omega) (by omega)]
    simp only [hdigit, true_and]
    constructor
    · intro heq
      rcases hexVal_cases hy with ⟨-, hval', -, -⟩ | ⟨-, hten', -, -⟩
      · exact UInt8.toNat_inj.mp (by omega)
      · omega
    · rintro rfl
      rw [hy] at hx
      cases hx
      omega
  · rw [hint, hbyte _ _ (by omega) (by omega)]
    exact iff_of_false (by omega) fun hd => by simp [hdigit] at hd

theorem quote_round_trip_iff (s : Bytes) :
    urlunquote (Database.quote s) = s ↔ ∀ b ∈ s, unreserved b = true ∨ b ∈ twins := by
  rw [Database.quote, encode, List.flatMap_def, urlunquote_pieces urlunquote_encodeByte,
    map_requoted_iff]
  simp only [requoted_iff]

theorem urlquote_round_trip_iff (s : Bytes) :
    (urlquote s).map urlunquote = some s ↔
      ∀ b ∈ s, b.toNat < 128 ∧ (unreserved b = true ∨ b ∈ twins) := by
  by_cases hlt : ∀ b ∈ s, b.toNat < 128
  · rw [urlquote_some hlt, Option.map_some, urlunquote_pieces urlunquote_quotePiece,
      Option.some.injEq, map_requoted_iff]
    simp only [requoted_iff]
    exact forall₂_congr fun b hb => (and_iff_right (hlt b hb)).symm
  · rw [urlquote_none hlt]
    exact iff_of_false (by simp) fun h => hlt fun b hb => (h b hb).1

/-- Both quotings of a string are undone exactly when every byte of it is unreserved or one of
three, and an escape decodes to its byte exactly when its digits are the same decimal digit. -/
theorem quoting_round_trips_iff (s : Bytes) :
    ((urlquote s).map urlunquote = some s ∧ urlunquote (Database.quote s) = s ↔
      ∀ b ∈ s, unreserved b = true ∨ b ∈ ([0x00, 0x11, 0x22] : Bytes)) ∧
    ∀ x y h l rest, hexVal x = some h → hexVal y = some l →
      (urlunquote (percent :: x :: y :: rest) = UInt8.ofNat (16 * h + l) :: urlunquote rest ↔
        isdigit x = true ∧ y = x) := by
  refine ⟨?_, fun x y h l rest hx hy => urlunquote_escape_iff hx hy rest⟩
  rw [urlquote_round_trip_iff, quote_round_trip_iff]
  constructor
  · rintro ⟨h, -⟩ b hb
    obtain ⟨hlt, hu | ht⟩ := h b hb
    · exact .inl hu
    · refine .inr ?_
      simp only [twins, List.mem_cons, List.not_mem_nil, or_false] at ht ⊢
      rcases ht with rfl | rfl | rfl | rfl | rfl
      all_goals first | decide | exact absurd hlt (by decide)
  · intro h
    have hboth : ∀ b ∈ s, b.toNat < 128 ∧ (unreserved b = true ∨ b ∈ twins) := by
      intro b hb
      rcases h b hb with hu | ht
      · exact ⟨unreserved_lt hu, .inl hu⟩
      · simp only [List.mem_cons, List.not_mem_nil, or_false] at ht
        rcases ht with rfl | rfl | rfl <;> decide
    exact ⟨hboth, fun b hb => (hboth b hb).2⟩

/-- The escape of a quotation mark, and strings that survive it. -/
theorem quoting_round_trips_mark :
    (urlquote (text "a\"b")).map urlunquote = some (text "a\"b") ∧
      urlunquote (Database.quote (text "a\"b")) = text "a\"b" ∧
        urlunquote (text "%22") = [0x22] ++ urlunquote [] :=
  have h := quoting_round_trips_iff (text "a\"b")
  have hmark := (h.2 (byte '2') (byte '2') 2 2 [] rfl rfl).mpr (by decide)
  have hbytes : ∀ b ∈ ([97, 34, 98] : Bytes), unreserved b = true ∨
      b ∈ ([0x00, 0x11, 0x22] : Bytes) :=
    List.forall_mem_cons.mpr ⟨.inl rfl,
      List.forall_mem_cons.mpr ⟨.inr (by simp), List.forall_mem_singleton.mpr (.inl rfl)⟩⟩
  have hboth := h.1.mpr hbytes
  ⟨hboth.1, hboth.2, hmark⟩

/-- The escape of a slash comes back as a quotation mark. -/
theorem quoting_slash : ¬ ∀ s, (urlquote s).map urlunquote = some s ∧
    urlunquote (Database.quote s) = s := by
  intro h
  have hslash := (h (text "/")).1
  revert hslash
  decide

/-! The name of a database on its way to the indexer. -/

theorem notMem_quote {b : UInt8} (hu : unreserved b = false) (hp : b ≠ percent)
    (hx : hexVal b = none) (s : Bytes) : b ∉ Database.quote s := by
  intro hmem
  rcases mem_encode hmem with hsafe | hb | ⟨n, hn, rfl⟩
  · rw [hu] at hsafe
    cases hsafe
  · exact hp hb
  · rw [hexVal_upperHex hn] at hx
    cases hx

theorem slash_notMem_quote (s : Bytes) : slash ∉ Database.quote s :=
  notMem_quote (by decide) (by decide) (by decide) s

theorem space_notMem_quote (s : Bytes) : space ∉ Database.quote s :=
  notMem_quote (by decide) (by decide) (by decide) s

/-- The first two components of a target in a database. -/
theorem splitTarget_target (name path : Bytes) :
    splitTarget (Database.target name path) =
      text "db" :: Database.quote name :: splitTarget path := by
  have htarget : Database.target name path =
      text "db" ++ slash :: (Database.quote name ++ slash :: path) := by
    simp only [Database.target, Database.qname, List.append_assoc]
    rfl
  rw [htarget, splitTarget_cons (by decide), splitTarget_cons (slash_notMem_quote name)]

def putGroup (name : Bytes) : Bytes := text "indexer_" ++ Database.quote name

/-- Where a PUT request on a database goes. -/
theorem routeMessage_put (write : Writer) (c : ℤ) {buf msgid name path payload : Bytes}
    {pos msglen : ℕ}
    (hbody : substr buf pos msglen = Client.message msgid (text "U")
      (Database.target name path) payload)
    (hid : space ∉ msgid) (hpath : space ∉ path) :
    routeMessage write c buf pos msglen = .sendToWorker (putGroup name)
      ⟨c, msgid, text "U" ++ Database.target name path, payload⟩ := by
  have htarget : space ∉ text "U" ++ Database.target name path := by
    simp only [Database.target, Database.qname, List.mem_append, not_or]
    exact ⟨by decide, ⟨⟨by decide, space_notMem_quote name⟩, by decide⟩, hpath⟩
  have hbuilt : buildMessage c buf pos msglen =
      .ok ⟨c, msgid, text "U" ++ Database.target name path, payload⟩ := by
    apply buildMessage_body _ hid htarget
    rw [hbody, Client.message]
    simp only [List.append_assoc]
    rfl
  have hsplit := splitTarget_target name path
  have hmethod : text "U" ++ Database.target name path = byte 'U' :: Database.target name path :=
    rfl
  simp only [routeMessage, hbuilt, hmethod, hsplit]
  rw [if_neg (by decide), if_neg (by decide), if_pos trivial, if_pos trivial]
  rfl

theorem putGroup_injective : Function.Injective putGroup := by
  intro name name' h
  exact encode_injective (by decide) (List.append_cancel_left h)

/-- `get_worker` cuts off seven characters of a prefix of eight. -/
theorem getWorker_putGroup (name : Bytes) :
    getWorker (putGroup name) = some (.indexer (text "_" ++ Database.quote name)) := by
  have hpre : startswith (putGroup name) (text "indexer") = true := by
    rw [startswith, List.isPrefixOf_iff_prefix]
    exact ⟨text "_" ++ Database.quote name, rfl⟩
  have hne : putGroup name ≠ text "search" := by
    intro h
    have hhead : some (byte 'i') = some (byte 's') := congrArg List.head? h
    revert hhead
    decide
  rw [getWorker, if_neg hne, if_pos hpre]
  rfl

/-- No indexer gets the name that the client has given to its database; two PUT requests of the
client go to the same group exactly when they name the same database. -/
theorem indexer_never_named (write : Writer) (c c' : ℤ)
    {buf buf' msgid msgid' name name' path path' payload payload' : Bytes}
    {pos pos' msglen msglen' : ℕ}
    (hbody : substr buf pos msglen = Client.message msgid (text "U")
      (Database.target name path) payload)
    (hid : space ∉ msgid) (hpath : space ∉ path)
    (hbody' : substr buf' pos' msglen' = Client.message msgid' (text "U")
      (Database.target name' path') payload')
    (hid' : space ∉ msgid') (hpath' : space ∉ path') :
    ¬ NamesIndexer write c buf pos msglen name ∧
      ∃ group group' msg msg', routeMessage write c buf pos msglen = .sendToWorker group msg ∧
        routeMessage write c' buf' pos' msglen' = .sendToWorker group' msg' ∧
        (getWorker group).isSome ∧ (group = group' ↔ name = name') := by
  have hroute := routeMessage_put write c hbody hid hpath
  refine ⟨?_, _, _, _, _, hroute, routeMessage_put write c' hbody' hid' hpath', ?_,
    putGroup_injective.eq_iff⟩
  · rintro ⟨group, msg, hsent, hworker⟩
    rw [hroute] at hsent
    cases hsent
    rw [getWorker_putGroup] at hworker
    obtain hname := Worker.indexer.inj (Option.some.inj hworker)
    -- quoting does not shorten the name, and the underscore is one more
    have hlen := congrArg List.length hname
    have hle : name.length ≤ (Database.quote name).length := length_le_encode name
    have hone : (text "_").length = 1 := rfl
    rw [List.length_append] at hlen
    omega
  · rw [getWorker_putGroup]
    rfl

/-- Two databases, one with a blank in its name. -/
theorem indexer_never_named_schemas :
    ¬ NamesIndexer (fun _ => []) 0 (text "0 Udb/a/_schema 1") 0 17 (text "a") ∧
      ∃ group group' msg msg', routeMessage (fun _ => []) 0 (text "0 Udb/a/_schema 1") 0 17 =
        .sendToWorker group msg ∧
        routeMessage (fun _ => []) 0 (text "1 Udb/b%20c/_schema 2") 0 21 =
          .sendToWorker group' msg' ∧
        (getWorker group).isSome ∧ (group = group' ↔ text "a" = text "b c") :=
  have hbody : substr (text "0 Udb/a/_schema 1") 0 17 =
      Client.message (text "0") (text "U") (Database.target (text "a") Database.schemaPath)
        (text "1") := by decide
  have hbody' : substr (text "1 Udb/b%20c/_schema 2") 0 21 =
      Client.message (text "1") (text "U") (Database.target (text "b c") Database.schemaPath)
        (text "2") := by decide
  indexer_never_named (fun _ => []) 0 0 hbody (by decide) (by decide) hbody' (by decide) (by decide)

/-- The database "a" is "_a" for its indexer. -/
theorem indexer_underscore :
    ¬ ∀ name,
      let body :=
        Client.message (text "0") (text "U") (Database.target name Database.schemaPath) []
      NamesIndexer (fun _ => []) 0 body 0 body.length name := by
  intro h
  obtain ⟨group, msg, hroute, hworker⟩ := h (text "a")
  have hbody : substr (text "0 Udb/a/_schema ") 0 16 =
      Client.message (text "0") (text "U") (Database.target (text "a") Database.schemaPath) [] := by
        decide
  change routeMessage (fun _ => []) 0 (text "0 Udb/a/_schema ") 0 16 = _ at hroute
  rw [routeMessage_put (fun _ => []) 0 hbody (by decide) (by decide)] at hroute
  cases hroute
  revert hworker
  decide

end Xaprun
