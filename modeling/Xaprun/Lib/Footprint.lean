import Mathlib.Data.Set.Basic

/-! Steps and the locations that they touch. A state is what it has at its locations. Two steps that
touch different locations commute. -/

namespace Footprint

variable {σ ι : Type*} {V : ι → Type*}

/-- The update treats every location by itself, and leaves those outside `F` alone. -/
def Acts (get : (i : ι) → σ → V i) (F : Set ι) (u : σ → σ) : Prop :=
  ∃ φ : (i : ι) → V i → V i, (∀ s i, get i (u s) = φ i (get i s)) ∧ ∀ i, i ∉ F → ∀ v, φ i v = v

/-- At `s` the step is an update of `F`, and what it does depends on `F` only. -/
def Touches (get : (i : ι) → σ → V i) (F : Set ι) (f : σ → Option σ) (s : σ) : Prop :=
  ∃ u, Acts get F u ∧ ∀ r, (∀ i ∈ F, get i r = get i s) → f r = some (u r)

variable {get : (i : ι) → σ → V i} {F G : Set ι} {u v : σ → σ} {f g : σ → Option σ} {s s₁ s₂ : σ}

theorem Acts.id : Acts get F fun s => s := ⟨fun _ v => v, fun _ _ => rfl, fun _ _ _ => rfl⟩

theorem Acts.comp (h : Acts get F v) (h' : Acts get F u) : Acts get F fun s => v (u s) := by
  obtain ⟨φ, hφ, hout⟩ := h
  obtain ⟨ψ, hψ, hout'⟩ := h'
  refine ⟨fun i x => φ i (ψ i x), fun s i => by rw [hφ, hψ], fun i hi x => ?_⟩
  exact (congrArg (φ i) (hout' i hi x)).trans (hout i hi x)

theorem Acts.mono (h : Acts get F u) (hsub : F ⊆ G) : Acts get G u := by
  obtain ⟨φ, hφ, hout⟩ := h
  exact ⟨φ, hφ, fun i hi => hout i fun hF => hi (hsub hF)⟩

theorem Acts.single [DecidableEq ι] (i : ι) (φ : V i → V i) (hi : i ∈ F)
    (hself : ∀ s, get i (u s) = φ (get i s))
    (hother : ∀ s j, j ≠ i → get j (u s) = get j s) : Acts get F u := by
  refine ⟨fun j x => if h : j = i then h ▸ φ (h ▸ x) else x, fun s j => ?_, fun j hj x => ?_⟩
  · by_cases h : j = i
    · subst h
      simp [hself]
    · simp [h, hother s j h]
  · have h : j ≠ i := fun he => hj (he ▸ hi)
    simp [h]

theorem Acts.frame (h : Acts get F u) {i : ι} (hi : i ∉ F) (s : σ) : get i (u s) = get i s := by
  obtain ⟨φ, hφ, hout⟩ := h
  rw [hφ, hout i hi]

/-- Steps that touch different locations lead to the same state in either order, and neither
disables the other. -/
theorem Touches.commute (hext : ∀ s r, (∀ i, get i s = get i r) → s = r) (hf : Touches get F f s)
    (hg : Touches get G g s) (hd : ∀ i ∈ F, i ∉ G) (hs₁ : f s = some s₁) (hs₂ : g s = some s₂) :
    ∃ s', g s₁ = some s' ∧ f s₂ = some s' := by
  obtain ⟨u, hu, hfu⟩ := hf
  obtain ⟨v, hv, hgv⟩ := hg
  obtain rfl : u s = s₁ := Option.some.inj ((hfu s fun _ _ => rfl).symm.trans hs₁)
  obtain rfl : v s = s₂ := Option.some.inj ((hgv s fun _ _ => rfl).symm.trans hs₂)
  refine ⟨v (u s), hgv (u s) fun i hi => hu.frame (fun hF => hd i hF hi) s, ?_⟩
  rw [hfu (v s) fun i hi => hv.frame (hd i hi) s]
  congr 1
  refine hext _ _ fun i => ?_
  by_cases hF : i ∈ F
  · rw [hv.frame (hd i hF)]
    obtain ⟨φ, hφ, -⟩ := hu
    rw [hφ, hφ, hv.frame (hd i hF)]
  · rw [hu.frame hF]
    obtain ⟨φ, hφ, -⟩ := hv
    rw [hφ, hφ, hu.frame hF]

end Footprint
