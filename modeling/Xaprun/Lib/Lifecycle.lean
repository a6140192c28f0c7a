import Mathlib.Logic.Function.Basic
import Mathlib.Data.List.Basic

/-! The life of objects that may each have a thread. An object is created, its thread is started
and comes to its end, the object is joined and deleted, and then another one may be created in its
place. A sequence of events is accepted if nothing happens to an object that does not exist, a
join ends after the thread, and an object whose thread has been started is deleted after a join. -/

namespace Lifecycle

variable {α : Type*} [DecidableEq α]

inductive Phase where
  | created
  | running
  | ended
  | joined
  deriving DecidableEq, Repr

inductive Kind where
  | create
  | start
  | use
  | finish
  | join
  | delete
  deriving DecidableEq, Repr

structure Event (α : Type*) where
  kind : Kind
  object : α
  deriving DecidableEq, Repr

/-- What an event makes of its object, where `none` stands for one that does not exist. -/
def next : Kind → Option Phase → Option (Option Phase)
  | .create, none => some (some .created)
  | .start, some .created => some (some .running)
  | .use, some p => some (some p)
  | .finish, some .running => some (some .ended)
  -- there is no thread to wait for
  | .join, some .created => some (some .created)
  | .join, some .ended | .join, some .joined => some (some .joined)
  | .delete, some .created | .delete, some .joined => some none
  | _, _ => none

def accept (live : α → Option Phase) (e : Event α) : Option (α → Option Phase) :=
  (next e.kind (live e.object)).map (Function.update live e.object)

def acceptAll : (α → Option Phase) → List (Event α) → Option (α → Option Phase)
  | live, [] => some live
  | live, e :: es => (accept live e).bind (acceptAll · es)

variable {live live' : α → Option Phase} {es : List (Event α)} {x : α}

theorem acceptAll_append (live : α → Option Phase) (es es' : List (Event α)) :
    acceptAll live (es ++ es') = (acceptAll live es).bind (acceptAll · es') := by
  induction es generalizing live with
  | nil => rfl
  | cons e es ih =>
    simp only [List.cons_append, acceptAll]
    cases accept live e with
    | none => rfl
    | some live' => exact ih live'

/-- Objects that exist may be used. -/
theorem acceptAll_uses {xs : List α} (h : ∀ x ∈ xs, (live x).isSome) :
    acceptAll live (xs.map (Event.mk .use)) = some live := by
  induction xs with
  | nil => rfl
  | cons x xs ih =>
    obtain ⟨p, hp⟩ := Option.isSome_iff_exists.mp (h x List.mem_cons_self)
    have hsame : accept live ⟨.use, x⟩ = some live := by
      simp only [accept, hp, next, Option.map_some]
      rw [← hp, Function.update_eq_self]
    simp only [List.map_cons, acceptAll, hsame, Option.bind_some]
    exact ih fun y hy => h y (List.mem_cons_of_mem x hy)

def existing (o : Option Phase) : ℕ := if o.isSome then 1 else 0

theorem existing_accept {e : Event α} (h : accept live e = some live') (x : α) :
    [e].count ⟨.create, x⟩ + existing (live x) = [e].count ⟨.delete, x⟩ + existing (live' x) := by
  obtain ⟨kind, y⟩ := e
  obtain ⟨p, hp, rfl⟩ := Option.map_eq_some_iff.mp h
  by_cases hx : x = y
  · subst hx
    rw [Function.update_self]
    simp only at hp
    revert hp
    generalize live x = o
    intro hp
    unfold next at hp
    split at hp <;> cases hp <;> simp [existing]
  · rw [Function.update_of_ne hx]
    have hne : ∀ k, [(⟨kind, y⟩ : Event α)].count ⟨k, x⟩ = 0 := fun k =>
      List.count_eq_zero_of_not_mem (by simp [hx])
    rw [hne, hne]

/-- An object is deleted as often as it is created, but for the one that exists. -/
theorem count_create_add (h : acceptAll live es = some live') (x : α) :
    es.count ⟨.create, x⟩ + existing (live x) = es.count ⟨.delete, x⟩ + existing (live' x) := by
  induction es generalizing live with
  | nil =>
    obtain rfl := Option.some.inj h
    rfl
  | cons e es ih =>
    obtain ⟨live₁, h₁, h⟩ := Option.bind_eq_some_iff.mp h
    have hfirst := existing_accept h₁ x
    have hrest := ih h
    rw [← List.singleton_append, List.count_append, List.count_append]
    omega

end Lifecycle
