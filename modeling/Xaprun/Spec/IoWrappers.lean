import Xaprun.Spec.Text

/-! The wrappers around `read` and `write` (`src/server/io_wrappers.cc`) and the look of `mainloop`
at the nudge socket. What the operating system does with the calls is a list of attempts. A
wrapper has no result where the list ends before it returns. -/

namespace Xaprun

open Frames

/-- What becomes of a call of `read` or `write`. -/
inductive Attempt where
  /-- it fails with `EINTR` -/
  | interrupted
  /-- it fails with another error -/
  | failed
  /-- it transfers `k + 1` bytes, or fewer where fewer are asked for or left in the stream -/
  | moves (k : ℕ)
  deriving DecidableEq, Repr

/-- The bytes that `read` gets when it asks for `count` of them, none at the end of the stream. -/
def readBytes (stream : Bytes) (count k : ℕ) : Bytes := stream.take (min (k + 1) count)

/-- The loop of `io_write`, with `data` as an offset in the string: the bytes that are accepted, and
the returned flag. -/
def ioWriteLoop (d : Bytes) : ℕ → ℕ → List Attempt → Option (Bytes × Bool)
  | _, 0, _ => some ([], true)
  | _, _ + 1, [] => none
  | data, len + 1, .interrupted :: as => ioWriteLoop d data (len + 1) as
  | _, _ + 1, .failed :: _ => some ([], false)
  | data, len + 1, .moves k :: as =>
    let c := min (k + 1) (len + 1)
    (ioWriteLoop d (data + c) (len + 1 - c) as).map fun r => (substr d data c ++ r.1, r.2)

def ioWrite (d : Bytes) (attempts : List Attempt) :
    Option (Bytes × Bool) := ioWriteLoop d 0 d.length attempts

def CHUNKSIZE : ℕ := 4096

structure ReadExact where
  result : Bytes
  /-- what is left of the stream -/
  stream : Bytes
  returned : Bool
  deriving DecidableEq, Repr

def ioReadExactLoop (toRead : ℕ) (result stream : Bytes) : ℕ → List Attempt → Option ReadExact
  | 0, _ => some ⟨result, stream, true⟩
  | _ + 1, [] => none
  | remainingToRead + 1, .interrupted :: as =>
    ioReadExactLoop toRead result stream (remainingToRead + 1) as
  | _ + 1, .failed :: _ => some ⟨result, stream, false⟩
  | remainingToRead + 1, .moves k :: as =>
    let count := min (remainingToRead + 1) CHUNKSIZE
    let buf := readBytes stream count k
    let bytesRead := buf.length
    if bytesRead = 0 then some ⟨result, stream, true⟩
    else
      let result := result ++ buf
      if toRead ≤ result.length then some ⟨result, stream.drop bytesRead, true⟩
      else ioReadExactLoop toRead result (stream.drop bytesRead)
        (remainingToRead + 1 - bytesRead) as

def ioReadExact (stream : Bytes) (toRead : ℕ) (attempts : List Attempt) : Option ReadExact :=
  ioReadExactLoop toRead [] stream toRead attempts

def toInt (n : ℤ) : ℤ := n.bmod (2 ^ 32)

structure ReadAppend where
  result : Bytes
  stream : Bytes
  returned : ℤ
  deriving DecidableEq, Repr

def ioReadAppend (result stream : Bytes) (maxToRead : ℕ) : List Attempt → Option ReadAppend
  | [] => none
  | .interrupted :: as => ioReadAppend result stream maxToRead as
  | .failed :: _ => some ⟨result, stream, -1⟩
  | .moves k :: _ =>
    let buf := readBytes stream maxToRead k
    let bytesRead := buf.length
    if bytesRead = 0 then some ⟨result, stream, toInt bytesRead⟩
    else some ⟨result ++ buf, stream.drop bytesRead, toInt bytesRead⟩

/-- `io_read_append` with two arguments: the string and the returned flag, to which the `int` is
converted. -/
def ioReadAppendChunk (result stream : Bytes) (attempts : List Attempt) : Option (Bytes × Bool) :=
  (ioReadAppend result stream CHUNKSIZE attempts).map fun r => (r.result, decide (r.returned ≠ 0))

/-- What `mainloop` does when the nudge socket is readable. -/
inductive Nudged where
  /-- `set_sys_error` and return -/
  | sysError
  /-- an `S` has been read, and it returns -/
  | shutDown
  | dispatchResponses
  deriving DecidableEq, Repr

def checkNudge (stream : Bytes) (attempts : List Attempt) : Option Nudged :=
  (ioReadAppendChunk [] stream attempts).map fun r =>
    if ¬ r.2 then .sysError else if byte 'S' ∈ r.1 then .shutDown else .dispatchResponses

/-! What the wrappers promise (`src/server/io_wrappers.h`). -/

/-- The attempts up to the first failure. -/
def beforeFailure (attempts : List Attempt) : List Attempt := attempts.takeWhile (· ≠ .failed)

/-- How many bytes the attempts transfer, with at most `cap` in one of them. -/
def moved (cap : ℕ) (attempts : List Attempt) : ℕ :=
  (attempts.map fun
    | .moves k => min (k + 1) cap
    | _ => 0).sum

/-- `io_write` writes everything, unless there is an error; what it has written is then a proper
part. -/
structure WritesAll (d : Bytes) (attempts : List Attempt) : Prop where
  returns : (ioWrite d attempts).isSome ↔
    d.length ≤ moved d.length (beforeFailure attempts) ∨ .failed ∈ attempts
  all : ∀ accepted, ioWrite d attempts = some (accepted, true) → accepted = d
  error : ∀ accepted, ioWrite d attempts = some (accepted, false) → accepted <+: d ∧ accepted ≠ d

/-- These attempts bring as many bytes as asked for, or the end of the stream: a read after all its
bytes. -/
def ReadToEnd (stream : Bytes) (toRead : ℕ) (attempts : List Attempt) : Prop :=
  toRead ≤ min stream.length (moved CHUNKSIZE attempts) ∨
    ∃ before k after, attempts = before ++ .moves k :: after ∧
      stream.length ≤ moved CHUNKSIZE before

/-- `io_read_exact` fails exactly on an error before that, and has otherwise read the bytes asked
for, as far as there are so many. It takes no byte more from the stream. -/
structure ReadsExactly (stream : Bytes) (toRead : ℕ) (attempts : List Attempt) : Prop where
  returns : (ioReadExact stream toRead attempts).isSome ↔
    ReadToEnd stream toRead (beforeFailure attempts) ∨ .failed ∈ attempts
  fails : ∀ r, ioReadExact stream toRead attempts = some r →
    (r.returned = false ↔ ¬ ReadToEnd stream toRead (beforeFailure attempts))
  exact : ∀ r, ioReadExact stream toRead attempts = some r → r.returned = true →
    r.result = stream.take toRead
  taken : ∀ r, ioReadExact stream toRead attempts = some r →
    r.result ++ r.stream = stream ∧ r.result.length ≤ toRead

def Attempt.bytes (stream : Bytes) (maxToRead : ℕ) : Attempt → Bytes
  | .moves k => readBytes stream maxToRead k
  | .interrupted | .failed => []

/-- After any number of interruptions, `io_read_append` adds what the last attempt reads, and
returns its length, or -1 on an error. With two arguments it returns false, and stops the main loop,
on an error only. -/
structure AppendsAsDocumented (result stream : Bytes) (maxToRead interruptions : ℕ)
    (last : Attempt) : Prop where
  gains : ∃ r, ioReadAppend result stream maxToRead
      (.replicate interruptions .interrupted ++ [last]) = some r ∧
    r.result = result ++ last.bytes stream maxToRead ∧
    stream = last.bytes stream maxToRead ++ r.stream ∧
    r.returned = if last = .failed then -1 else ((last.bytes stream maxToRead).length : ℤ)
  chunk : ∃ returned, ioReadAppendChunk result stream
    (.replicate interruptions .interrupted ++ [last]) =
    some (result ++ last.bytes stream CHUNKSIZE, returned) ∧ (returned = false ↔ last = .failed)
  nudge : ∃ nudged, checkNudge stream (.replicate interruptions .interrupted ++ [last]) =
    some nudged ∧
    (nudged = .sysError ↔ last = .failed)

end Xaprun
