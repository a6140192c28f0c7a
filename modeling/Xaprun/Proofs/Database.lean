import Xaprun.Proofs.Quoting
import Xaprun.Sanity.Check
import Xaprun.Spec.Database

/-! Which requests of a database say what was asked. `insert` has its two branches the wrong way
round, and `get` sends nothing. A `delete` is told from every other request, but its document id is
not quoted, so that not every id is read back or can be sent. -/

namespace Xaprun.Database

open Frames Percent

/-! The target of a `delete`. -/

theorem target_delete (name type docid : Bytes) :
    target name (quote type ++ text "/" ++ docid) =
      text "db" ++ slash :: (quote name ++ slash :: (quote type ++ slash :: docid)) := by
  simp only [target, qname, List.append_assoc]
  rfl

theorem splitTarget_delete (name type docid : Bytes) :
    splitTarget (target name (quote type ++ text "/" ++ docid)) =
      text "db" :: quote name :: quote type :: splitTarget docid := by
  rw [target_delete, splitTarget_cons (by decide), splitTarget_cons (slash_notMem_quote name),
    splitTarget_cons (slash_notMem_quote type)]

theorem decode_quote (s : Bytes) : decode (quote s) = s := decode_encode (by decide) s

theorem path_delete_iff (name type docid : Bytes) :
    (splitTarget (target name (quote type ++ text "/" ++ docid))).map decode =
    [text "db", name, type, docid] ↔
      slash ∉ docid ∧ ¬ HasEscape docid := by
  rw [splitTarget_delete, ← decode_eq_self_iff]
  simp only [List.map_cons, decode_quote]
  have hdb : decode (text "db") = text "db" := rfl
  rcases target_cases docid with ⟨hslash, heq⟩ | ⟨a, r, -, hdocid, heq⟩
  · rw [heq, hdb]
    simp [hslash]
  · refine iff_of_false (fun h => ?_) (fun h => h.1 (by rw [hdocid]; simp))
    have hlen := congrArg List.length h
    rw [heq] at hlen
    have hpos := List.length_pos_iff.mpr (splitAtSlashes r).nonempty
    simp only [List.map_cons, List.length_cons, List.length_map, List.length_nil] at hlen
    omega

theorem target_delete_injective {name type docid name' type' docid' : Bytes}
    (h : target name (quote type ++ text "/" ++ docid) = target name'
      (quote type' ++ text "/" ++ docid')) :
    name = name' ∧ type = type' ∧ docid = docid' := by
  rw [target_delete, target_delete] at h
  obtain ⟨-, hrest⟩ := append_cons_inj h (by decide) (by decide)
  obtain ⟨hname, hrest⟩ := append_cons_inj hrest (slash_notMem_quote name)
    (slash_notMem_quote name')
  obtain ⟨htype, hdocid⟩ :=
    append_cons_inj hrest (slash_notMem_quote type) (slash_notMem_quote type')
  exact ⟨encode_injective (by decide) hname, encode_injective (by decide) htype, hdocid⟩

theorem space_mem_target_delete (name type docid : Bytes) :
    space ∈ target name (quote type ++ text "/" ++ docid) ↔ space ∈ docid := by
  have hdb : space ∉ text "db" := by decide
  have hslash : space ≠ slash := by decide
  rw [target_delete]
  simp [hdb, hslash, space_notMem_quote]

section

variable {J : Type} {dumps : J → Bytes} {ofString : Bytes → J} {loads : Bytes → Option J}
  {name : Bytes}

theorem method_insert_ne (doc : J) (docid type : Bytes) {r : Issued}
    (hr : request dumps ofString name (.insert doc docid type) = some r) :
    r.method ≠ (Call.insert doc docid type).method := by
  by_cases hdocid : docid ≠ []
  · have hmethod : (Call.insert doc docid type).method = text "U" := if_pos hdocid
    rw [request, if_pos hdocid] at hr
    obtain rfl := Option.some.inj hr
    rw [hmethod]
    change text "P" ≠ text "U"
    decide
  · have hmethod : (Call.insert doc docid type).method = text "P" := if_neg hdocid
    rw [request, if_neg hdocid] at hr
    obtain rfl := Option.some.inj hr
    rw [hmethod]
    change text "U" ≠ text "P"
    decide

theorem accepted_delete_iff (docid type : Bytes) :
    (∀ r, request dumps ofString name (.delete docid type) = some r →
      ∀ (conn : Client.Connection Unit),
      Client.send conn r.method r.target r.payload () ≠ .error .assertionError) ↔
        space ∉ docid := by
  have hmem := space_mem_target_delete name type docid
  constructor
  · intro h hspace
    apply h _ rfl (.init Unit)
    change Client.send (.init Unit) (text "D") (target name (quote type ++ text "/" ++ docid)) []
      () = _
    unfold Client.send
    rw [if_neg (by decide), if_neg (by decide), if_pos (hmem.mpr hspace)]
  · intro hspace r hr conn
    cases hr
    rcases Client.send_cases conn (text "D") (target name (quote type ++ text "/" ++ docid)) []
      () with
      ⟨hassert, -⟩ | ⟨-, heq⟩ | ⟨-, written, heq⟩
    · exact absurd ⟨by decide, rfl, mt hmem.mp hspace⟩ hassert
    · exact fun herror => by cases heq.symm.trans herror
    · exact fun herror => by cases heq.symm.trans herror

theorem distinct_delete {docid type name' : Bytes} {call' : Call J}
    (h : request dumps ofString name' call' = some
      (deleted (target name (quote type ++ text "/" ++ docid)))) :
    name' = name ∧ call' = .delete docid type := by
  cases call' with
  | insert doc docid' type' =>
    unfold request at h
    dsimp only at h
    split_ifs at h
    · have hmethod : text "P" = text "D" := congrArg Issued.method (Option.some.inj h)
      exact absurd hmethod (by decide)
    · have hmethod : text "U" = text "D" := congrArg Issued.method (Option.some.inj h)
      exact absurd hmethod (by decide)
  | delete docid' type' =>
    have htarget := congrArg Issued.target (Option.some.inj h)
    obtain ⟨rfl, rfl, rfl⟩ := target_delete_injective htarget
    exact ⟨rfl, rfl⟩
  | get docid' => cases h

/-- A call is unambiguous exactly if it is a `delete` of a document whose id has no slash, no space
and no escape. -/
theorem requests_decoded_iff (dumps : J → Bytes) (ofString : Bytes → J) (loads : Bytes → Option J)
    (name : Bytes)
    (call : Call J) :
    Unambiguous dumps ofString loads name call ↔
      ∃ docid type, call = .delete docid type ∧ slash ∉ docid ∧ space ∉ docid ∧
        ¬ HasEscape docid := by
  cases call with
  | insert doc docid type =>
    refine iff_of_false (fun h => ?_) ?_
    · obtain ⟨r, hr, hdecodes⟩ := h.issued
      exact method_insert_ne doc docid type hr hdecodes.method
    · rintro ⟨docid', type', hcall, -⟩
      cases hcall
  | get docid =>
    refine iff_of_false (fun h => ?_) ?_
    · obtain ⟨r, hr, -⟩ := h.issued
      cases hr
    · rintro ⟨docid', type', hcall, -⟩
      cases hcall
  | delete docid type =>
    constructor
    · intro h
      obtain ⟨r, hr, hdecodes⟩ := h.issued
      obtain rfl := Option.some.inj hr
      obtain ⟨hslash, hescape⟩ := (path_delete_iff name type docid).mp hdecodes.path
      exact ⟨docid, type, rfl, hslash, (accepted_delete_iff docid type).mp h.accepted, hescape⟩
    · rintro ⟨docid', type', hcall, hslash, hspace, hescape⟩
      cases hcall
      refine ⟨⟨_, rfl, rfl, (path_delete_iff name type docid).mpr ⟨hslash, hescape⟩,
        fun doc hdoc => ?_⟩,
        (accepted_delete_iff docid type).mpr hspace, fun r hr name' call' hr' => ?_⟩
      · cases hdoc
      · obtain rfl := Option.some.inj hr
        exact distinct_delete hr'

end

/-- Two documents that are to replace the documents "1" and "2" go out as one and the same request.
-/
theorem requests_same_docids :
    ¬ ∀ name (call : Call Bytes), Unambiguous id id some name call := by
  intro h
  have hfirst := h (text "a") (.insert (text "7") (text "1") (text "default"))
  obtain ⟨-, hcall⟩ := hfirst.distinct _ rfl (text "a")
    (.insert (text "7") (text "2") (text "default")) rfl
  revert hcall
  decide

end Xaprun.Database
