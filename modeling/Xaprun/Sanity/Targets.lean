import Xaprun.Sanity.Messages
import Xaprun.Spec.Routing

/-! The components of a target: `split_target` splits it at its slashes. -/

namespace Xaprun

open Frames

theorem findFrom_slash {target a r : Bytes} {i : ℕ} (h : target.drop i = a ++ slash :: r)
    (ha : slash ∉ a) :
    findFrom (fun b => decide (b = slash)) target i = some (i + a.length) := by
  have hnone : a.findIdx? (fun b => decide (b = slash)) = none := by
    rw [List.findIdx?_eq_none_iff]
    intro b hb
    simpa using fun he : b = slash => ha (he ▸ hb)
  rw [findFrom, h, List.findIdx?_append, hnone, List.findIdx?_cons]
  simp

theorem findFrom_no_slash {target : Bytes} {i : ℕ} (h : slash ∉ target.drop i) :
    findFrom (fun b => decide (b = slash)) target i = none := by
  have hnone : (target.drop i).findIdx? (fun b => decide (b = slash)) = none := by
    rw [List.findIdx?_eq_none_iff]
    intro b hb
    simpa using fun he : b = slash => h (he ▸ hb)
  rw [findFrom, hnone]
  rfl

theorem splitTargetLoop_eq_splitOn (target : Bytes) (fuel : ℕ) :
    ∀ i, target.length < i + fuel → i ≤ target.length →
      splitTargetLoop target fuel i = (target.drop i).splitOn slash := by
  induction fuel with
  | zero =>
    intro i hfuel hi
    omega
  | succ fuel ih =>
    intro i hfuel hi
    by_cases hslash : slash ∈ target.drop i
    · obtain ⟨a, r, hdrop, ha⟩ := List.eq_append_cons_of_mem hslash
      have hlen := congrArg List.length hdrop
      rw [List.length_drop, List.length_append, List.length_cons] at hlen
      have hnext : target.drop (i + a.length + 1) = r := by
        rw [Nat.add_assoc, ← List.drop_drop, hdrop, ← List.drop_drop, List.drop_left]
        rfl
      rw [splitTargetLoop, findFrom_slash hdrop ha]
      dsimp only
      rw [ih _ (by omega) (by omega), hnext, hdrop, List.splitOn_append_cons_self_of_not_mem ha,
        substr, hdrop,
        Nat.add_sub_cancel_left, List.take_left]
    · rw [splitTargetLoop, findFrom_no_slash hslash, List.splitOn_eq_singleton hslash]

theorem splitTarget_eq_splitOn (target : Bytes) : splitTarget target = target.splitOn slash := by
  rw [splitTarget, splitTargetLoop_eq_splitOn target _ 0 (by omega) (by omega), List.drop_zero]

theorem splitTarget_cons {a : Bytes} (ha : slash ∉ a) (r : Bytes) :
    splitTarget (a ++ slash :: r) = a :: splitTarget r := by
  rw [splitTarget_eq_splitOn, splitTarget_eq_splitOn, List.splitOn_append_cons_self_of_not_mem ha]

theorem splitTarget_single {a : Bytes} (ha : slash ∉ a) : splitTarget a = [a] := by
  rw [splitTarget_eq_splitOn, List.splitOn_eq_singleton ha]

/-- A target is one component, or has a first one before a slash. -/
theorem target_cases (target : Bytes) :
    (slash ∉ target ∧ splitTarget target = [target]) ∨
      ∃ a r, slash ∉ a ∧ target = a ++ slash :: r ∧ splitTarget target = a :: splitTarget r := by
  by_cases hslash : slash ∈ target
  · obtain ⟨a, r, rfl, ha⟩ := List.eq_append_cons_of_mem hslash
    exact .inr ⟨a, r, ha, rfl, splitTarget_cons ha r⟩
  · exact .inl ⟨hslash, splitTarget_single hslash⟩

theorem splitAtSlashes (target : Bytes) : SplitAtSlashes target (splitTarget target) := by
  refine ⟨?_, ?_, ?_⟩
  · rw [splitTarget_eq_splitOn]
    exact List.splitOn_ne_nil slash target
  · induction hn : target.length using Nat.strong_induction_on generalizing target with
    | _ n ih =>
      rcases target_cases target with ⟨hslash, heq⟩ | ⟨a, r, ha, rfl, heq⟩
      · rw [heq]
        exact List.forall_mem_singleton.mpr hslash
      · rw [heq]
        have hlen : r.length < n := by
          rw [← hn, List.length_append, List.length_cons]
          omega
        exact List.forall_mem_cons.mpr ⟨ha, ih _ hlen r rfl⟩
  · rw [splitTarget_eq_splitOn]
    exact List.intercalate_splitOn slash

end Xaprun
