import Xaprun.Spec.Quoting

/-! The requests of a `Database` of the Python client (`clients/python/xaprun/client.py`). `J` is
the type of JSON values, `dumps` and `loads` are `json.dumps` and `json.loads`, and `ofString` takes
a string as a JSON value. What the methods make of the response is left out. -/

namespace Xaprun.Database

open Frames Percent

structure Issued where
  method : Bytes
  target : Bytes
  payload : Bytes
  deriving DecidableEq, Repr

/-- A call of a method that is about a document. `insert` without a document id has an empty one. -/
inductive Call (J : Type) where
  | insert (doc : J) (docid type : Bytes)
  | delete (docid type : Bytes)
  | get (docid : Bytes)
  deriving DecidableEq, Repr

section

variable {J : Type} (dumps : J → Bytes) (ofString : Bytes → J)

def put (target payload : Bytes) : Issued := ⟨text "U", target, payload⟩

/-- The payload is dumped here, and once more on the way to `_put`. -/
def putj (target : Bytes) (payload : J) : Issued := put target (dumps (ofString (dumps payload)))

def post (target payload : Bytes) : Issued := ⟨text "P", target, payload⟩

def postj (target : Bytes) (payload : J) : Issued := post target (dumps payload)

/-- `_delete` -/
def deleted (target : Bytes) : Issued := ⟨text "D", target, []⟩

/-- The request of a call, or `none` where it raises an exception first: in `get` the name `type` is
the built-in type, which cannot be quoted. -/
def request (name : Bytes) : Call J → Option Issued
  | .insert doc docid type =>
    if docid ≠ [] then some (postj dumps (target name (insertPath type [])) doc)
    else some (putj dumps ofString (target name (insertPath type docid)) doc)
  | .delete docid type => some (deleted (target name (quote type ++ text "/" ++ docid)))
  | .get _ => none

end

/-! What is asked for. -/

section

variable {J : Type}

/-- PUT for a document with an id, POST for one without. -/
def Call.method : Call J → Bytes
  | .insert _ docid _ => if docid ≠ [] then text "U" else text "P"
  | .delete .. => text "D"
  | .get _ => text "G"

/-- The database, the type and the document id. `get` has no argument for the type. -/
def Call.path (name : Bytes) : Call J → List Bytes
  | .insert _ docid type | .delete docid type => [text "db", name, type, docid]
  | .get docid => [text "db", name, text "default", docid]

def Call.doc : Call J → Option J
  | .insert doc _ _ => some doc
  | .delete .. | .get _ => none

/-- The call can be read off the request. -/
structure Decodes (loads : Bytes → Option J) (name : Bytes) (call : Call J) (r : Issued) :
    Prop where
  method : r.method = call.method
  path : (splitTarget r.target).map decode = call.path name
  doc : ∀ doc, call.doc = some doc → loads r.payload = some doc

structure Unambiguous (dumps : J → Bytes) (ofString : Bytes → J) (loads : Bytes → Option J)
    (name : Bytes)
    (call : Call J) : Prop where
  issued : ∃ r, request dumps ofString name call = some r ∧ Decodes loads name call r
  accepted : ∀ r, request dumps ofString name call = some r → ∀ (conn : Client.Connection Unit),
    Client.send conn r.method r.target r.payload () ≠ .error .assertionError
  distinct : ∀ r, request dumps ofString name call = some r → ∀ name' call',
    request dumps ofString name' call' = some r → name' = name ∧ call' = call

end

end Xaprun.Database
