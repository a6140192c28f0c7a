import Xaprun.Spec.Dispatch

/-! The request stream as `docs/protocol.rst` describes it: frames with white
space before, between and after them. `scan` says how far into a stream a buffer
reaches. It reads the frames of the stream, not the bytes of the buffer, so it does
not depend on how the dispatcher parses. -/

namespace Xaprun

open Frames

/-- A request frame and the white space sent before it. -/
structure Frame where
  ws : Bytes
  body : Bytes
  blank : ∀ b ∈ ws, isspace b = true
  short : body.length < 10 ^ 9

namespace Frame

def head (f : Frame) : Bytes := dec f.body.length

def bytes (f : Frame) : Bytes := f.ws ++ frame f.body

def trim (f : Frame) (n : ℕ) : Frame :=
  { f with ws := f.ws.drop n, blank := fun b hb => f.blank b (List.mem_of_mem_drop hb) }

def bare (f : Frame) : Frame := f.trim f.ws.length

end Frame

def stream (fs : List Frame) (tail : Bytes) : Bytes := (fs.map Frame.bytes).flatten ++ tail

structure Requests where
  frames : List Frame
  tail : Bytes
  blank : ∀ b ∈ tail, isspace b = true

def Requests.bytes (rs : Requests) : Bytes := stream rs.frames rs.tail

/-- The parts of a message body by the grammar of `docs/protocol.rst`. Without a payload there is
no second space. -/
def Documented (body msgid target payload : Bytes) : Prop :=
  msgid ≠ [] ∧ space ∉ msgid ∧ space ∉ target ∧
    (body = msgid ++ space :: target ∧ payload = [] ∨
      body = msgid ++ space :: (target ++ space :: payload))

/-- `build_message` gives a message exactly when the body has the documented parts, which are
then those of the message. Otherwise `route_message` sends one fatal error and nothing else. The
outcome is the same wherever these bytes stand. -/
structure ParsedAsDocumented (connectionNum : ℤ) (buf : Bytes) (pos msglen : ℕ) : Prop where
  parts : ∀ msg, buildMessage connectionNum buf pos msglen = .ok msg ↔
    msg.connectionNum = connectionNum ∧
      Documented (substr buf pos msglen) msg.msgid msg.target msg.payload
  fails : ∀ payload, buildMessage connectionNum buf pos msglen = .error payload →
    payload = text "Invalid message" ∧ ∀ write, routeMessage write connectionNum buf pos msglen =
      .sendResponse connectionNum (sendFatalError write payload)
  surroundings : ∀ buf' pos', pos' + msglen ≤ buf'.length →
    substr buf' pos' msglen = substr buf pos msglen →
    buildMessage connectionNum buf' pos' msglen = buildMessage connectionNum buf pos msglen

/-- A byte string cut into the chunks that successive reads return. A read that returns no
bytes is the end of the stream. -/
structure Reads (s : Bytes) where
  chunks : List Bytes
  nonempty : ∀ c ∈ chunks, c ≠ []
  whole : chunks.flatten = s

/-- How far a buffer reaches into a stream. -/
structure Scan where
  /-- the bodies of the whole frames at its front -/
  bodies : List Bytes
  /-- the frames after these -/
  left : List Frame
  /-- the buffer from the first byte of the next frame on -/
  rest : Bytes
  /-- the scan stopped at a frame whose length field ends beyond byte nine of the buffer -/
  late : Bool

/-- With `cap` set, stop at a frame whose length field ends beyond byte nine, `o` being the
offset in the buffer. -/
def scan (cap : Bool) : ℕ → List Frame → Bytes → Scan
  | _, [], _ => ⟨[], [], [], false⟩
  | o, f :: fs, r =>
    if r.length ≤ f.ws.length then ⟨[], f.trim r.length :: fs, [], false⟩
    else if cap = true ∧ MAX_MSG_LEN_LEN < o + f.ws.length + f.head.length then
      ⟨[], f.bare :: fs, r.drop f.ws.length, true⟩
    else if r.length < f.bytes.length then ⟨[], f.bare :: fs, r.drop f.ws.length, false⟩
    else
      let t := scan cap (o + f.bytes.length) fs (r.drop f.bytes.length)
      { t with bodies := f.body :: t.bodies }

def Scan.resync (s : Scan) : Prop := s.late = true ∧ s.rest.any iscrlf = true

instance (s : Scan) : Decidable s.resync := inferInstanceAs (Decidable (_ ∧ _))

/-- How far a read gets: not at all when the first frame is late, else to the end. -/
def scanRead (fs : List Frame) (buf : Bytes) : Scan :=
  let s := scan true 0 fs buf
  if s.late = true ∧ s.bodies = [] then s else scan false 0 fs buf

/-- At every read, no line end follows in the buffer from the first late frame on, and the
last read leaves no frame behind. -/
def Smooth : List Frame → Bytes → List Bytes → Prop
  | fs, _, [] => fs = []
  | fs, buf, c :: cs =>
    ¬ (scan true 0 fs (buf ++ c)).resync ∧
      Smooth (scanRead fs (buf ++ c)).left (scanRead fs (buf ++ c)).rest cs

def Call.routed : Call → Option (ℤ × Bytes)
  | .routeMessage c buf pos msglen => some (c, substr buf pos msglen)
  | .sendFatalError _ _ => none

/-- The framing loop routes exactly the given bodies, in this order, and reports no error. -/
def Served (connectionNum : ℤ) (calls : List Call) (bodies : List Bytes) : Prop :=
  calls.map Call.routed = bodies.map fun b => some (connectionNum, b)

instance (c : ℤ) (calls : List Call) (bodies : List Bytes) : Decidable (Served c calls bodies) :=
  inferInstanceAs (Decidable (_ = _))

end Xaprun
