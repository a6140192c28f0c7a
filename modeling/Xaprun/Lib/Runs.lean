import Mathlib.Data.List.Basic

/-! Runs of a partial step function. `step s a = none` means that the action is
not enabled in `s`. A run carries a guard `ok` on the state and the action before
each step, so that "every run whose steps all meet the guard" is a run too. -/

namespace Runs

variable {σ τ α β ε : Type*}

inductive Run (step : σ → α → Option σ) (ok : σ → α → Prop) (s₀ : σ) : List α → σ → Prop
  | nil : Run step ok s₀ [] s₀
  | snoc {as : List α} {s s' : σ} {a : α} :
      Run step ok s₀ as s → ok s a → step s a = some s' → Run step ok s₀ (as ++ [a]) s'

/-- Any action that is enabled may be taken. -/
def free : σ → α → Prop := fun _ _ => True

instance (s : σ) (a : α) : Decidable (free s a) := inferInstanceAs (Decidable True)

/-- Some run meeting the guard ends in `s`. -/
def Reachable (step : σ → α → Option σ) (ok : σ → α → Prop) (s₀ s : σ) : Prop :=
  ∃ as, Run step ok s₀ as s

variable {step : σ → α → Option σ} {ok ok' : σ → α → Prop} {s₀ s s' : σ} {as bs : List α} {a : α}

theorem Reachable.start : Reachable step ok s₀ s₀ := ⟨[], .nil⟩

theorem Reachable.next (h : Reachable step ok s₀ s) (hok : ok s a) (hs : step s a = some s') :
    Reachable step ok s₀ s' := by
  obtain ⟨as, hrun⟩ := h
  exact ⟨_, hrun.snoc hok hs⟩

/-- What holds at the start and is kept by every step that meets the guard
holds at the end of every run. -/
theorem Run.invariant {Inv : σ → Prop} (h : Run step ok s₀ as s) (h₀ : Inv s₀)
    (hstep : ∀ s a s', ok s a → step s a = some s' → Inv s → Inv s') : Inv s := by
  induction h with
  | nil => exact h₀
  | snoc _ hok hs ih => exact hstep _ _ _ hok hs ih

theorem Reachable.invariant {Inv : σ → Prop} (h : Reachable step ok s₀ s) (h₀ : Inv s₀)
    (hstep : ∀ s a s', ok s a → step s a = some s' → Inv s → Inv s') : Inv s := by
  obtain ⟨as, hrun⟩ := h
  exact hrun.invariant h₀ hstep

/-- The same, where a step may use that it starts in a reachable state. -/
theorem Reachable.invariant_of_reachable (h : Reachable step ok s₀ s) (Inv : σ → Prop) (h₀ : Inv s₀)
    (hstep : ∀ s a s', Reachable step ok s₀ s → ok s a → step s a = some s' → Inv s → Inv s') :
    Inv s := by
  obtain ⟨as, hrun⟩ := h
  induction hrun with
  | nil => exact h₀
  | snoc hprev hok hs ih => exact hstep _ _ _ ⟨_, hprev⟩ hok hs ih

theorem Run.mono (h : Run step ok s₀ as s) (hsub : ∀ s a, ok s a → ok' s a) :
    Run step ok' s₀ as s := by
  induction h with
  | nil => exact .nil
  | snoc _ hok hs ih => exact ih.snoc (hsub _ _ hok) hs

theorem Reachable.mono (h : Reachable step ok s₀ s) (hsub : ∀ s a, ok s a → ok' s a) :
    Reachable step ok' s₀ s := by
  obtain ⟨as, hrun⟩ := h
  exact ⟨as, hrun.mono hsub⟩

/-- A run whose every step is matched by a run between the images. The invariant
lets the simulation use what holds of the reachable concrete states. -/
theorem Reachable.simulate {step' : τ → β → Option τ} {ok' : τ → β → Prop}
    (h : Reachable step ok s₀ s) (f : σ → τ) (Inv : σ → Prop) (h₀ : Inv s₀)
    (hinv : ∀ s a s', ok s a → step s a = some s' → Inv s → Inv s')
    (hsim : ∀ s a s' t₀, ok s a → step s a = some s' → Inv s →
      Reachable step' ok' t₀ (f s) → Reachable step' ok' t₀ (f s')) :
    Reachable step' ok' (f s₀) (f s) := by
  obtain ⟨as, hrun⟩ := h
  induction hrun with
  | nil => exact .start
  | snoc hprev hok hs ih => exact hsim _ _ _ _ hok hs (hprev.invariant h₀ hinv) ih

theorem Run.last (h : Run step ok s₀ (as ++ [a]) s') :
    ∃ s, Run step ok s₀ as s ∧ ok s a ∧ step s a = some s' := by
  generalize hcs : as ++ [a] = cs at h
  cases h with
  | nil => simp at hcs
  | snoc hrun hok hs =>
    obtain ⟨rfl, hb⟩ := List.append_inj' hcs rfl
    obtain rfl : a = _ := by simpa using hb
    exact ⟨_, hrun, hok, hs⟩

theorem Run.before (h : Run step ok s₀ (as ++ bs) s') : ∃ s, Run step ok s₀ as s := by
  induction bs generalizing as with
  | nil => exact ⟨s', by simpa using h⟩
  | cons b bs ih =>
    have hsplit : as ++ b :: bs = (as ++ [b]) ++ bs := by simp
    obtain ⟨t, ht⟩ := ih (hsplit ▸ h)
    obtain ⟨s, hs, -⟩ := ht.last
    exact ⟨s, hs⟩

theorem Run.eq_of_run (h : Run step ok s₀ as s) (h' : Run step ok' s₀ as s') : s = s' := by
  induction h generalizing s' with
  | nil =>
    generalize hcs : ([] : List α) = cs at h'
    cases h' with
    | nil => rfl
    | snoc => simp at hcs
  | snoc _ _ hs ih =>
    obtain ⟨t, ht, -, hs'⟩ := h'.last
    obtain rfl := ih ht
    exact Option.some.inj (hs.symm.trans hs')

/-- If a step from a good state is a fine one and leads to a good state exactly when it meets the
guard, then the runs with fine steps through good states are the runs that meet the guard. -/
theorem Run.guard_iff {Good : σ → Prop} {fine : σ → α → Prop} (h₀ : Good s₀)
    (hgood : ∀ s a s', Reachable step fine s₀ s → step s a = some s' → Good s →
      (fine s a ∧ Good s' ↔ ok s a))
    (h : Run step free s₀ as s) :
    (Run step fine s₀ as s ∧ ∀ bs t, bs <+: as → Run step free s₀ bs t → Good t) ↔
      Run step ok s₀ as s := by
  have hrun : ∀ {bs t}, Run step ok s₀ bs t → Run step fine s₀ bs t ∧ Good t := by
    intro bs t ht
    induction ht with
    | nil => exact ⟨.nil, h₀⟩
    | snoc hprev hok hs ih =>
      obtain ⟨hfine, hafter⟩ := (hgood _ _ _ ⟨_, ih.1⟩ hs ih.2).mpr hok
      exact ⟨ih.1.snoc hfine hs, hafter⟩
  constructor
  · rintro ⟨hfine, hall⟩
    induction h with
    | nil => exact .nil
    | snoc hprev hok hs ih =>
      have hbefore := hall _ _ (List.prefix_append _ _) hprev
      have hafter := hall _ _ (List.prefix_refl _) (hprev.snoc hok hs)
      obtain ⟨t, hlast, hf, -⟩ := hfine.last
      obtain rfl := hprev.eq_of_run hlast
      have hprefix := ih hlast fun bs t hbs => hall bs t (hbs.trans (List.prefix_append _ _))
      exact hprefix.snoc ((hgood _ _ _ ⟨_, hlast⟩ hs hbefore).mp ⟨hf, hafter⟩) hs
  · intro hok
    refine ⟨(hrun hok).1, ?_⟩
    rintro bs t ⟨cs, rfl⟩ ht
    obtain ⟨t', ht'⟩ := hok.before
    obtain rfl := ht.eq_of_run ht'
    exact (hrun ht').2

theorem run_append (h : Run step ok s₀ as s) (h' : Run step ok s bs s') :
    Run step ok s₀ (as ++ bs) s' := by
  induction h' with
  | nil => simpa using h
  | snoc _ hok hs ih => simpa [List.append_assoc] using ih.snoc hok hs

theorem Reachable.trans (h : Reachable step ok s₀ s) (h' : Reachable step ok s s') :
    Reachable step ok s₀ s' := by
  obtain ⟨as, hrun⟩ := h
  obtain ⟨bs, hrun'⟩ := h'
  exact ⟨as ++ bs, run_append hrun hrun'⟩

/-! What happens in the end. -/

/-- Whichever of the steps that meet the guard are taken, and in whatever order, `P` holds after
finitely many of them: as long as it does not, some step can be taken. -/
inductive Inevitable (step : σ → α → Option σ) (ok : σ → α → Prop) (P : σ → Prop) : σ → Prop
  | now {s : σ} : P s → Inevitable step ok P s
  | later {s : σ} : (∃ a s', ok s a ∧ step s a = some s') →
      (∀ a s', ok s a → step s a = some s' → Inevitable step ok P s') → Inevitable step ok P s

/-- A state can move as long as `P` does not hold, and each move leads to `P` or lowers the
measure. -/
theorem inevitable_of_measure {ι : Type*} {r : ι → ι → Prop} (hwf : WellFounded r) (measure : σ → ι)
    {P : σ → Prop}
    (Inv : σ → Prop)
    (hmove : ∀ s, Inv s → P s ∨ ∃ a s', ok s a ∧ step s a = some s')
    (hstep : ∀ s a s', Inv s → ok s a → step s a = some s' → P s' ∨ Inv s' ∧
      r (measure s') (measure s)) :
    ∀ s, Inv s → Inevitable step ok P s := by
  intro s
  induction s using (InvImage.wf measure hwf).induction with
  | _ s ih =>
    intro hinv
    rcases hmove s hinv with hP | hmoves
    · exact .now hP
    · refine .later hmoves fun a s' hok hs => ?_
      rcases hstep s a s' hinv hok hs with hP | ⟨hinv', hlt⟩
      · exact .now hP
      · exact ih s' hlt hinv'

theorem Inevitable.trans {P Q : σ → Prop} (h : Inevitable step ok P s)
    (hnext : ∀ s, P s → Inevitable step ok Q s) :
    Inevitable step ok Q s := by
  induction h with
  | now hP => exact hnext _ hP
  | later hmoves _ ih => exact .later hmoves ih

/-- A run together with the events that its steps have emitted, the oldest first. -/
inductive Logged (step : σ → α → Option σ) (ok : σ → α → Prop) (emit : σ → α → List ε) (s₀ : σ) :
    List ε → σ → Prop
  | nil : Logged step ok emit s₀ [] s₀
  | snoc {es : List ε} {s s' : σ} {a : α} :
      Logged step ok emit s₀ es s → ok s a → step s a = some s' →
        Logged step ok emit s₀ (es ++ emit s a) s'

variable {emit : σ → α → List ε} {es : List ε}

theorem Logged.reachable (h : Logged step ok emit s₀ es s) : Reachable step ok s₀ s := by
  induction h with
  | nil => exact .start
  | snoc _ hok hs ih => exact ih.next hok hs

/-- What holds of no events and is kept by every step holds of a whole log. A step may use that
it starts in a reachable state. -/
theorem Logged.invariant (h : Logged step ok emit s₀ es s) (Inv : List ε → σ → Prop)
    (h₀ : Inv [] s₀)
    (hstep : ∀ es s a s', Reachable step ok s₀ s → ok s a → step s a = some s' → Inv es s →
      Inv (es ++ emit s a) s') : Inv es s := by
  induction h with
  | nil => exact h₀
  | snoc hprev hok hs ih => exact hstep _ _ _ _ hprev.reachable hok hs ih

/-- A forward simulation. Every step is matched by steps of the other system, from any state that is
related, and the relation may mention what has been emitted. -/
theorem Logged.simulate {step' : τ → β → Option τ} {ok' : τ → β → Prop} {t₀ : τ}
    (h : Logged step ok emit s₀ es s)
    (R : List ε → σ → τ → Prop) (h₀ : R [] s₀ t₀)
    (hsim : ∀ es s a s' t, Reachable step ok s₀ s → ok s a → step s a = some s' → R es s t →
      ∃ t', Reachable step' ok' t t' ∧ R (es ++ emit s a) s' t') :
    ∃ t, Reachable step' ok' t₀ t ∧ R es s t := by
  induction h with
  | nil => exact ⟨t₀, .start, h₀⟩
  | snoc hprev hok hs ih =>
    obtain ⟨t, hr, hR⟩ := ih
    obtain ⟨t', hr', hR'⟩ := hsim _ _ _ _ t hprev.reachable hok hs hR
    exact ⟨t', hr.trans hr', hR'⟩

def recorded (step : σ → α → Option σ) (emit : σ → α → List ε) (p : List ε × σ) (a : α) :
    Option (List ε × σ) :=
  (step p.2 a).map fun s' => (p.1 ++ emit p.2 a, s')

theorem Reachable.logged {p : List ε × σ}
    (h : Reachable (recorded step emit) (fun p => ok p.2) ([], s₀) p) :
    Logged step ok emit s₀ p.1 p.2 := by
  refine h.invariant_of_reachable (fun p => Logged step ok emit s₀ p.1 p.2) .nil
    fun p a p' _ hok hs hi => ?_
  obtain ⟨s', hs', rfl⟩ := Option.map_eq_some_iff.mp hs
  exact hi.snoc hok hs'

theorem Inevitable.recorded {P : σ → Prop} {Q : List ε → σ → Prop} (h : Inevitable step ok P s)
    (hsub : ∀ s a, ok s a → ok' s a) (hend : ∀ es s, Logged step ok' emit s₀ es s → P s → Q es s)
    (hlog : Logged step ok' emit s₀ es s) :
    Inevitable (recorded step emit) (fun p => ok p.2) (fun p => Q p.1 p.2) (es, s) := by
  induction h generalizing es with
  | now hP => exact .now (hend _ _ hlog hP)
  | later hmoves _ ih =>
    refine .later ?_ fun a p hok hs => ?_
    · obtain ⟨a, s', hok, hs⟩ := hmoves
      exact ⟨a, _, hok, Option.map_eq_some_iff.mpr ⟨s', hs, rfl⟩⟩
    · obtain ⟨s', hs', rfl⟩ := Option.map_eq_some_iff.mp hs
      exact ih a s' hok hs' (hlog.snoc (hsub _ _ hok) hs')

/-! Computing a run, for explicit traces. -/

/-- Take the actions in turn, checking the guard before each of them. -/
def exec (step : σ → α → Option σ) (ok : σ → α → Prop) [∀ s a, Decidable (ok s a)] :
    σ → List α → Option σ
  | s, [] => some s
  | s, a :: as => if ok s a then (step s a).bind (exec step ok · as) else none

theorem run_of_exec [∀ s a, Decidable (ok s a)] :
    ∀ {as : List α} {s : σ}, exec step ok s as = some s' → Run step ok s as s' := by
  intro as
  induction as with
  | nil => intro s h; simp only [exec, Option.some.injEq] at h; subst h; exact .nil
  | cons a as ih =>
    intro s h
    unfold exec at h
    split_ifs at h with hok
    obtain ⟨t, ht, hrest⟩ := Option.bind_eq_some_iff.mp h
    exact run_append (Run.nil.snoc hok ht) (ih hrest)

theorem reachable_of_exec [∀ s a, Decidable (ok s a)] (h : exec step ok s as = some s') :
    Reachable step ok s s' := ⟨as, run_of_exec h⟩

/-- What is found by computing the run. -/
theorem exists_of_exec [∀ s a, Decidable (ok s a)] {P : σ → Prop} [DecidablePred P]
    (h : (exec step ok s as).any (fun s' => decide (P s')) = true) :
    ∃ s', exec step ok s as = some s' ∧ P s' := by
  cases hexec : exec step ok s as with
  | none => simp [hexec] at h
  | some s' =>
    rw [hexec] at h
    exact ⟨s', rfl, of_decide_eq_true h⟩

/-- The same with the events that the steps emit. -/
def trace (step : σ → α → Option σ) (ok : σ → α → Prop) [∀ s a, Decidable (ok s a)]
    (emit : σ → α → List ε) : σ → List α → Option (List ε × σ)
  | s, [] => some ([], s)
  | s, a :: as =>
    if ok s a then
      (step s a).bind fun s' => (trace step ok emit s' as).map fun r => (emit s a ++ r.1, r.2)
    else none

theorem Logged.append_trace [∀ s a, Decidable (ok s a)] :
    ∀ {as : List α} {s : σ} {es es' : List ε}, Logged step ok emit s₀ es s →
      trace step ok emit s as = some (es', s') → Logged step ok emit s₀ (es ++ es') s' := by
  intro as
  induction as with
  | nil =>
    intro s es es' hlog h
    simp only [trace, Option.some.injEq, Prod.mk.injEq] at h
    obtain ⟨rfl, rfl⟩ := h
    simpa using hlog
  | cons a as ih =>
    intro s es es' hlog h
    unfold trace at h
    split_ifs at h with hok
    obtain ⟨t, ht, h⟩ := Option.bind_eq_some_iff.mp h
    obtain ⟨⟨es'', s''⟩, hrest, heq⟩ := Option.map_eq_some_iff.mp h
    obtain ⟨rfl, rfl⟩ := Prod.mk.inj heq
    rw [← List.append_assoc]
    exact ih (hlog.snoc hok ht) hrest

theorem logged_of_trace [∀ s a, Decidable (ok s a)] (h : trace step ok emit s as = some (es, s')) :
    Logged step ok emit s es s' := by
  simpa using Logged.nil.append_trace h

theorem exists_of_trace [∀ s a, Decidable (ok s a)] {P : List ε → σ → Prop}
    [∀ es s, Decidable (P es s)]
    (h : (trace step ok emit s as).any (fun r => decide (P r.1 r.2)) = true) :
    ∃ es s', trace step ok emit s as = some (es, s') ∧ P es s' := by
  cases htrace : trace step ok emit s as with
  | none => simp [htrace] at h
  | some r =>
    rw [htrace] at h
    exact ⟨r.1, r.2, rfl, of_decide_eq_true h⟩

end Runs
