import Xaprun.Spec.Remote

/-! What a `Client` (`clients/python/xaprun/client.py`) makes of the result of `sendwait`, and the
loop of `sendwait` itself. `V` is the type of the other Python values in a parsed JSON document:
`items` is such a document as a dictionary, `none` if it is not one, and `isOne` says that a value
is equal to 1. -/

namespace Xaprun

open Frames

namespace Reply

inductive Item (V : Type) where
  | int (n : ℤ)
  | str (s : Bytes)
  | value (v : V)
  deriving DecidableEq, Repr

variable {J V : Type} (items : J → Option (Bytes → Option (Item V))) (isOne : V → Bool)

def dict : Client.Result J → Option (Bytes → Option (Item V))
  | .dict root => some fun key =>
      if key = text "ok" then some (.int root.ok) else if key = text "msg" then some
        (.str root.msg) else none
  | .json v => items v
  | .empty => none

def Item.equalsOne : Item V → Bool
  | .int n => decide (n = 1)
  | .str _ => false
  | .value v => isOne v

def check (response : Client.Result J) : Except (Item V) (Client.Result J) :=
  match dict items response with
  | none => .error (.str (text "Response is not a dict"))
  | some get =>
    if ((get (text "ok")).getD (.int 0)).equalsOne isOne = false then
      .error ((get (text "msg")).getD (.str (text "Unspecified error in server")))
    else .ok response

def itemFromResponse (response : Client.Result J) (key : Bytes) : Except (Item V) (Item V) :=
  match check items isOne response with
  | .error e => .error e
  | .ok response =>
    match (dict items response).bind (· key) with
    | some item => .ok item
    | none => .error (.str (text "Expected key '" ++ key ++ text "' missing from response"))

/-- `Client.version`, from the result of `sendwait` on. `_get` has checked it before. -/
def version (result : Client.Result J) : Except (Item V) (Item V) :=
  match check items isOne result with
  | .error e => .error e
  | .ok response => itemFromResponse items isOne response (text "msg")

end Reply

namespace Remote

variable {κ J V : Type} (loads : Bytes → Option J) (write : Writer)
  (items : J → Option (Bytes → Option (Reply.Item V)))
  (isOne : V → Bool)

/-- A thread waits in `sendwait` for the result of the call number `i`: its loop calls `check` again
as long as there is no result. All other steps are those of the pipes and the server. -/
def Awaiting (i : ℕ) (s : State κ J) : Act κ → Prop
  | .check => s.fired.length ≤ i
  | a => Inner s a

structure Returned (i : ℕ) (s s' : State κ J) : Prop where
  checking : s'.checking = false
  calls : s'.calls = s.calls
  fired : s'.fired = (s.calls.take (i + 1)).map fun r => (r.callback, answer loads write r)

/-- `json.loads` reads the reply that the dispatcher has written to a request it does not know. -/
structure ReadsNotFound (message : Reply.Item V) : Prop where
  reads : ∃ v get, loads (write ⟨0, text "Not found"⟩) = some v ∧ items v = some get ∧
    ((get (text "ok")).getD (.int 0)).equalsOne isOne = false ∧ get (text "msg") = some message

/-- What the client makes of the result of a request: `version` returns the version, and of every
other request it is told that it was not found. -/
structure Understood (message : Reply.Item V) (r : Client.Request κ) (result : Client.Result J) :
    Prop where
  version : r.method = text "G" → r.target = text "version" →
    Reply.version items isOne result = .ok (.str Xaprun.version)
  other : ¬ (r.method = text "G" ∧ r.target = text "version") →
    Reply.check items isOne result = .error message

end Remote

end Xaprun
