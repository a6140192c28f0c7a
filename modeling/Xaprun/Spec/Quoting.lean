import Xaprun.Lib.Percent
import Xaprun.Spec.Client

/-! Percent-quoting on the two sides: `urlquote` and `urlunquote` of the server
(`src/utils.cc`), with `char` an 8-bit signed type, and `quote` and the targets of a `Database`
of the Python client (`clients/python/xaprun/client.py`). `urllib.quote` with no safe
characters is standard percent-encoding of all but letters, digits and three more. -/

namespace Xaprun

open Frames Percent

def schar (ch : UInt8) : ℤ := if ch.toNat < 128 then ch.toNat else (ch.toNat : ℤ) - 256

def isalnum (ch : UInt8) : Bool :=
  isdigit ch || (decide (65 ≤ ch.toNat) && decide (ch.toNat ≤ 90)) ||
    (decide (97 ≤ ch.toNat) && decide (ch.toNat ≤ 122))

def unreserved (ch : UInt8) : Bool :=
  isalnum ch || decide (ch = byte '_') || decide (ch = byte '-') || decide (ch = byte '.')

def hexTable : Bytes := text "0123456789abcdef"

/-- `"0123456789abcdef" [i]`, or `none` where this is no entry of the table. -/
def hexAt (i : ℤ) : Option UInt8 := if 0 ≤ i then hexTable[i.toNat]? else none

/-- The indices into the table for one byte: `ch / 16` and `ch % 16`, which round to zero. -/
def hexIndices (ch : UInt8) : List ℤ :=
  if unreserved ch then [] else [(schar ch).tdiv 16, (schar ch).tmod 16]

/-- What a round of the loop in `urlquote` appends. -/
def urlquoteByte (ch : UInt8) : Option Bytes :=
  if unreserved ch then some [ch]
  else do
    let high ← hexAt ((schar ch).tdiv 16)
    let low ← hexAt ((schar ch).tmod 16)
    some [percent, high, low]

/-- `none` where an index is outside the table. -/
def urlquote : Bytes → Option Bytes
  | [] => some []
  | ch :: value => do
    let result ← urlquoteByte ch
    let rest ← urlquote value
    some (result ++ rest)

def hexToInt (ch : UInt8) : ℕ :=
  if isdigit ch then ch.toNat - 48
  else if 65 ≤ ch.toNat ∧ ch.toNat ≤ 70 then ch.toNat - 65
  else if 97 ≤ ch.toNat ∧ ch.toNat ≤ 102 then ch.toNat - 97
  else 0

/-- The loop of `urlunquote` from index `i`. Every round moves on, so as many rounds as there
are bytes are enough. -/
def urlunquoteLoop (value : Bytes) : ℕ → ℕ → Bytes
  | 0, _ => []
  | fuel + 1, i =>
    match value[i]? with
    | none => []
    | some ch =>
      if ch = percent then
        if value.length ≤ i + 2 then substr value i (value.length - i)
        else
          let ch1 := value.getD (i + 1) 0
          let ch2 := value.getD (i + 1) 0
          UInt8.ofNat (hexToInt ch1 * 16 + hexToInt ch2) :: urlunquoteLoop value fuel (i + 3)
      else ch :: urlunquoteLoop value fuel (i + 1)

def urlunquote (value : Bytes) : Bytes := urlunquoteLoop value value.length 0

/-- A byte of the input and what stands for it in the quoted string: itself, or an escape. -/
def Quoted (b : UInt8) (piece : Bytes) : Prop :=
  unreserved b = true ∧ piece = [b] ∨
    ∃ x y, (hexVal x).isSome ∧ (hexVal y).isSome ∧ piece = [percent, x, y]

/-- Every index into the table is one of its entries, and the result has an unreserved
character or a well-formed escape for every byte. -/
structure QuotesCleanly (s : Bytes) : Prop where
  indices : ∀ i ∈ s.flatMap hexIndices, 0 ≤ i ∧ i < 16
  pieces : ∃ ps, List.Forall₂ Quoted s ps ∧ urlquote s = some ps.flatten
  clean : ∀ r, urlquote s = some r → space ∉ r ∧ slash ∉ r ∧ cr ∉ r ∧ lf ∉ r

namespace Database

def quote (val : Bytes) : Bytes := encode unreserved val

def qname (name : Bytes) : Bytes := text "db/" ++ quote name

def target (name path : Bytes) : Bytes := qname name ++ text "/" ++ path

def schemaPath : Bytes := text "_schema"

/-- The path in the target of an `insert` that is sent as PUT. -/
def insertPath (type docid : Bytes) : Bytes := quote type ++ text "/" ++ docid

end Database

def NamesIndexer (write : Writer) (connectionNum : ℤ) (buf : Bytes) (pos msglen : ℕ)
    (name : Bytes) : Prop :=
  ∃ group msg, routeMessage write connectionNum buf pos msglen = .sendToWorker group msg ∧
    getWorker group = some (.indexer name)

end Xaprun
