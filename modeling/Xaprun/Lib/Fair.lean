import Mathlib.Data.Nat.Find
import Mathlib.Data.Nat.Init
import Mathlib.Order.Lattice
import Xaprun.Lib.Runs

/-! Infinite runs of a partial step function, and what happens in those that are fair to a process:
if it is able to act over and over again, then it acts over and over again. -/

namespace Runs

variable {σ α : Type*}

/-- An infinite run. Where there is no action, nothing happens. -/
structure Path (step : σ → α → Option σ) (ok : σ → α → Prop) (s : ℕ → σ) (act : ℕ → Option α) :
    Prop where
  idle : ∀ n, act n = none → s (n + 1) = s n
  moves : ∀ n a, act n = some a → ok (s n) a ∧ step (s n) a = some (s (n + 1))

/-- The process with the actions `mine` can take one that meets the guard. -/
def Able (step : σ → α → Option σ) (ok : σ → α → Prop) (mine : α → Prop) (s : σ) : Prop :=
  ∃ a s', mine a ∧ ok s a ∧ step s a = some s'

def Fair (able : σ → Prop) (mine : α → Prop) (s : ℕ → σ) (act : ℕ → Option α) : Prop :=
  (∀ n, ∃ m, n ≤ m ∧ able (s m)) → ∀ n, ∃ m, n ≤ m ∧ ∃ a, act m = some a ∧ mine a

variable {step : σ → α → Option σ} {ok : σ → α → Prop} {s : ℕ → σ} {act : ℕ → Option α}
  {s₀ : σ} {n : ℕ}

theorem Path.reachable (h : Path step ok s act) (h₀ : Reachable step ok s₀ (s 0)) (n : ℕ) :
    Reachable step ok s₀ (s n) := by
  induction n with
  | zero => exact h₀
  | succ n ih =>
    cases hact : act n with
    | none =>
      rw [h.idle n hact]
      exact ih
    | some a =>
      obtain ⟨hok, hs⟩ := h.moves n a hact
      exact ih.next hok hs

/-- What every action keeps holds from then on. -/
theorem Path.keeps (h : Path step ok s act) {P : σ → Prop} (hP : P (s n))
    (hkeep : ∀ m a, n ≤ m → act m = some a → P (s m) → P (s (m + 1))) : ∀ m, n ≤ m → P (s m) := by
  intro m hm
  induction m, hm using Nat.le_induction with
  | base => exact hP
  | succ m hm ih =>
    cases hact : act m with
    | none =>
      rw [h.idle m hact]
      exact ih
    | some a => exact hkeep m a hm hact ih

/-- A process acts in a state that only it can leave, if it is able to act over and over again in
it. The action is its next one. -/
theorem Path.next (h : Path step ok s act) {able : σ → Prop} {mine : α → Prop}
    (hfair : Fair able mine s act) {P : σ → Prop} (hP : P (s n))
    (hkeep : ∀ m a, n ≤ m → act m = some a → ¬ mine a → P (s m) → P (s (m + 1)))
    (hable : (∀ m, n ≤ m → P (s m)) → ∀ m, n ≤ m → ∃ k, m ≤ k ∧ able (s k)) :
    ∃ m a, n ≤ m ∧ P (s m) ∧ act m = some a ∧ mine a ∧
      ∀ k b, n ≤ k → k < m → act k = some b → ¬ mine b := by
  classical
  have hacts : ∃ m, n ≤ m ∧ ∃ a, act m = some a ∧ mine a := by
    by_contra hno
    have hstays : ∀ m, n ≤ m → P (s m) := h.keeps hP fun m a hm hact hPm =>
      hkeep m a hm hact (fun hmine => hno ⟨m, hm, a, hact, hmine⟩) hPm
    have hoften : ∀ m, ∃ k, m ≤ k ∧ able (s k) := fun m => by
      obtain ⟨k, hk, ha⟩ := hable hstays (max n m) (le_max_left n m)
      exact ⟨k, (le_max_right n m).trans hk, ha⟩
    exact hno (hfair hoften n)
  obtain ⟨hm, a, hact, hmine⟩ := Nat.find_spec hacts
  have hbefore : ∀ k b, n ≤ k → k < Nat.find hacts → act k = some b → ¬ mine b :=
    fun k b hk hlt hb hmineb => Nat.find_min hacts hlt ⟨hk, b, hb, hmineb⟩
  have hstays : ∀ m, n ≤ m → m ≤ Nat.find hacts → P (s m) := by
    intro m hnm
    induction m, hnm using Nat.le_induction with
    | base => exact fun _ => hP
    | succ m hnm ih =>
      intro hle
      cases hb : act m with
      | none =>
        rw [h.idle m hb]
        exact ih (by omega)
      | some b => exact hkeep m b hnm hb (hbefore m b hnm hle hb) (ih (by omega))
  exact ⟨_, a, hm, hstays _ hm le_rfl, hact, hmine, hbefore⟩

/-- The next action comes before anything else happens. -/
theorem Path.first (h : Path step ok s act) {k : ℕ} (hk : n ≤ k) (hact : (act k).isSome) :
    ∃ m a, n ≤ m ∧ act m = some a ∧ s m = s n := by
  obtain ⟨d, rfl⟩ := Nat.exists_eq_add_of_le hk
  induction d generalizing n with
  | zero =>
    obtain ⟨a, ha⟩ := Option.isSome_iff_exists.mp hact
    exact ⟨n, a, le_rfl, ha, rfl⟩
  | succ d ih =>
    cases hn : act n with
    | some a => exact ⟨n, a, le_rfl, hn, rfl⟩
    | none =>
      rw [show n + (d + 1) = n + 1 + d by omega] at hact
      obtain ⟨m, a, hm, ha, heq⟩ := ih (by omega) hact
      exact ⟨m, a, by omega, ha, heq.trans (h.idle n hn)⟩

theorem Path.no_descent {ι : Type*} {r : ι → ι → Prop} (hwf : WellFounded r)
    (h : Path step ok s act) (measure : σ → ι)
    (hlt : ∀ m a, n ≤ m → act m = some a → r (measure (s (m + 1))) (measure (s m)))
    (hoften : ∀ m, ∃ k, m ≤ k ∧ (act k).isSome) : False := by
  have hnone : ∀ x m, n ≤ m → measure (s m) = x → False := by
    intro x
    induction x using hwf.induction with
    | _ x ih =>
      rintro m hm rfl
      obtain ⟨k, hk, hact⟩ := hoften m
      obtain ⟨j, a, hj, ha, heq⟩ := h.first hk hact
      have hless := hlt j a (hm.trans hj) ha
      rw [heq] at hless
      exact ih _ hless (j + 1) (by omega) rfl
  exact hnone _ n le_rfl rfl

/-- What the first `k` steps from `n` on emit. -/
def emitted {ε : Type*} (emit : σ → α → List ε) (s : ℕ → σ) (act : ℕ → Option α) (n : ℕ) :
    ℕ → List ε
  | 0 => []
  | k + 1 => emitted emit s act n k ++ (act (n + k)).elim [] (emit (s (n + k)))

theorem emitted_add {ε : Type*} (emit : σ → α → List ε) (s : ℕ → σ) (act : ℕ → Option α)
    (n j k : ℕ) :
    emitted emit s act n (j + k) = emitted emit s act n j ++ emitted emit s act (n + j) k := by
  induction k with
  | zero => simp [emitted]
  | succ k ih => rw [← Nat.add_assoc, emitted, emitted, ih, Nat.add_assoc n j k, List.append_assoc]

theorem Path.logs {ε : Type*} {emit : σ → α → List ε} (h : Path step ok s act)
    (Inv : List ε → σ → Prop) {es : List ε}
    (hInv : Inv es (s n))
    (hstep : ∀ es s a s', ok s a → step s a = some s' → Inv es s → Inv (es ++ emit s a) s')
    (k : ℕ) :
    Inv (es ++ emitted emit s act n k) (s (n + k)) := by
  induction k with
  | zero => simpa [emitted] using hInv
  | succ k ih =>
    rw [emitted, ← List.append_assoc, ← Nat.add_assoc]
    cases hact : act (n + k) with
    | none =>
      rw [h.idle _ hact, Option.elim_none, List.append_nil]
      exact ih
    | some a =>
      obtain ⟨hok, hs⟩ := h.moves _ a hact
      exact hstep _ _ _ _ hok hs ih

/-- A finite run goes on for ever if nothing happens any more. -/
theorem path_of_run {as : List α} {s' : σ} (h : Run step ok s₀ as s') :
    ∃ (s : ℕ → σ) (act : ℕ → Option α),
    Path step ok s act ∧ s 0 = s₀ ∧ (∀ n, as.length ≤ n → s n = s') ∧ ∀ n, s n = s' ∨
      ∃ a, ok (s n) a := by
  induction h with
  | nil =>
    exact ⟨fun _ => s₀, fun _ => none, ⟨fun _ _ => rfl, fun _ _ h => by cases h⟩, rfl,
      fun _ _ => rfl, fun _ => .inl rfl⟩
  | @snoc as t t' a hrun hok hs ih =>
    obtain ⟨s, act, hpath, hstart, hend, hguard⟩ := ih
    refine ⟨fun n => if n ≤ as.length then s n else t',
      fun n => if n < as.length then act n else if n = as.length then some a else none, ⟨?_, ?_⟩,
        ?_, ?_, ?_⟩
    · intro n hact
      rcases Nat.lt_trichotomy n as.length with hlt | heq | hgt
      · rw [if_pos hlt] at hact
        rw [if_pos (Nat.succ_le_of_lt hlt), if_pos hlt.le, hpath.idle n hact]
      · simp [heq] at hact
      · rw [if_neg (by omega), if_neg (by omega)]
    · intro n b hact
      rcases Nat.lt_trichotomy n as.length with hlt | heq | hgt
      · rw [if_pos hlt] at hact
        rw [if_pos hlt.le, if_pos (Nat.succ_le_of_lt hlt)]
        exact hpath.moves n b hact
      · rw [if_neg (by omega), if_pos heq] at hact
        obtain rfl := Option.some.inj hact
        rw [if_pos heq.le, if_neg (by omega), heq, hend _ le_rfl]
        exact ⟨hok, hs⟩
      · rw [if_neg (by omega), if_neg (by omega)] at hact
        cases hact
    · exact (if_pos (Nat.zero_le _)).trans hstart
    · intro n hn
      rw [List.length_append, List.length_singleton] at hn
      exact if_neg (by omega)
    · intro n
      by_cases hn : n ≤ as.length
      · beta_reduce
        rw [if_pos hn]
        rcases hguard n with heq | hsome
        · rw [heq]
          exact .inr ⟨a, hok⟩
        · exact .inr hsome
      · exact .inl (if_neg hn)

end Runs
