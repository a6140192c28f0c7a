import Mathlib.Algebra.Order.BigOperators.Group.Finset
import Xaprun.Spec.DefaultConnection

/-! All clients share one local instance of the server, however the threads that make them
interleave, and no thread waits for the mutex in vain. -/

namespace Xaprun.DefaultConnection

open Runs

variable {T : Type} [DecidableEq T] {s s' : State T} {a : Act T} {t u : T}

/-- What a step does: a thread goes on, and what else it changes. -/
inductive Goes (s : State T) : Act T → State T → Prop
  | call {t : T} : (s.phase t).done = true → Goes s (.call t) (s.goTo t .acquiring)
  | acquire {t : T} : s.phase t = .acquiring → s.mutex = none →
      Goes s (.acquire t) { s.goTo t .looking with mutex := some t }
  | absent {t : T} : s.phase t = .looking → s.defConnection = none →
      Goes s (.look t) (s.goTo t .starting)
  | present {t : T} {connection : ℕ} : s.phase t = .looking → s.defConnection = some connection →
      Goes s (.look t) (s.goTo t (.chosen connection))
  | started {t : T} : s.phase t = .starting → Goes s (.start t true)
      { s.goTo t (.chosen s.started) with
        defConnection := some s.started, started := s.started + 1 }
  | failed {t : T} : s.phase t = .starting → Goes s (.start t false) (s.goTo t .failed)
  | made {t : T} {connection : ℕ} : s.phase t = .chosen connection →
      Goes s (.release t) { s.goTo t (.made connection) with mutex := none }
  | raised {t : T} : s.phase t = .failed → Goes s (.release t) { s.goTo t .raised with
      mutex := none }

theorem goes_of_step (h : step s a = some s') : Goes s a s' := by
  cases a with
  | call t =>
    simp only [step] at h
    split at h
    · rename_i hp
      obtain rfl := Option.some.inj h
      exact .call (by rw [hp]; rfl)
    · rename_i hp
      obtain rfl := Option.some.inj h
      exact .call (by rw [hp]; rfl)
    · rename_i hp
      obtain rfl := Option.some.inj h
      exact .call (by rw [hp]; rfl)
    · cases h
  | acquire t =>
    obtain ⟨⟨hp, hm⟩, h⟩ := Option.ite_none_right_eq_some.mp h
    obtain rfl := Option.some.inj h
    exact .acquire hp hm
  | look t =>
    obtain ⟨hp, h⟩ := Option.ite_none_right_eq_some.mp h
    split at h
    · rename_i hd
      obtain rfl := Option.some.inj h
      exact .absent hp hd
    · rename_i hd
      obtain rfl := Option.some.inj h
      exact .present hp hd
  | start t ok =>
    obtain ⟨hp, h⟩ := Option.ite_none_right_eq_some.mp h
    cases ok with
    | true =>
      obtain rfl := Option.some.inj h
      exact .started hp
    | false =>
      obtain rfl := Option.some.inj h
      exact .failed hp
  | release t =>
    simp only [step] at h
    split at h
    · rename_i hp
      obtain rfl := Option.some.inj h
      exact .made hp
    · rename_i hp
      obtain rfl := Option.some.inj h
      exact .raised hp
    · cases h

/-! What holds in every state. -/

def Phase.connection? : Phase → Option ℕ
  | .chosen connection | .made connection => some connection
  | .out | .acquiring | .looking | .starting | .failed | .raised => none

/-- The mutex belongs to the thread behind it, and the instance is started by one that has found
none. -/
structure Sound (s : State T) : Prop where
  owner : ∀ t, (s.phase t).holds = true ↔ s.mutex = some t
  absent : ∀ t, s.phase t = .starting → s.defConnection = none
  started : s.started = s.defConnection.elim 0 fun _ => 1
  shared : ∀ t connection, (s.phase t).connection? = some connection →
    s.defConnection = some connection

omit [DecidableEq T] in
theorem sound_init : Sound (init T) := by
  refine ⟨fun t => ?_, fun t h => ?_, rfl, fun t connection h => ?_⟩
  · simp [init, Phase.holds]
  · cases h
  · cases h

theorem not_holds_of_done {p : Phase} (h : p.done = true) : p.holds = false := by
  cases p with
  | out | made | raised => rfl
  | acquiring | looking | starting | chosen | failed => cases h

theorem goTo_phase (s : State T) (t u : T) (p : Phase) :
    (s.goTo t p).phase u = if u = t then p else s.phase u :=
  Function.update_apply ..

theorem Sound.owner_goTo (hi : Sound s) {p : Phase} (hp : p.holds = (s.phase t).holds) (u : T) :
    ((s.goTo t p).phase u).holds = true ↔ s.mutex = some u := by
  rw [goTo_phase]
  split_ifs with hu
  · rw [hp, hu]
    exact hi.owner t
  · exact hi.owner u

theorem Sound.owner_release (hi : Sound s) {p : Phase} (ht : (s.phase t).holds = true)
    (hp : p.holds = false) (u : T) :
    ((s.goTo t p).phase u).holds = true ↔ none = some u := by
  rw [goTo_phase]
  split_ifs with hu
  · simp [hp]
  · have hne : s.mutex ≠ some u := by
      rw [(hi.owner t).mp ht]
      exact fun h => hu (Option.some.inj h).symm
    simp [(hi.owner u).not.mpr hne]

theorem Sound.absent_goTo (hi : Sound s) {p : Phase} (hp : p = .starting → s.defConnection = none)
    (u : T)
    (hu : (s.goTo t p).phase u = .starting) : s.defConnection = none := by
  rw [goTo_phase] at hu
  split_ifs at hu
  · exact hp hu
  · exact hi.absent u hu

theorem Sound.shared_goTo (hi : Sound s) {p : Phase}
    (hp : ∀ connection, p.connection? = some connection → s.defConnection = some connection) (u : T)
    (connection : ℕ)
    (hu : ((s.goTo t p).phase u).connection? = some connection) :
    s.defConnection = some connection := by
  rw [goTo_phase] at hu
  split_ifs at hu
  · exact hp connection hu
  · exact hi.shared u connection hu

theorem Sound.step (hi : Sound s) (h : DefaultConnection.step s a = some s') : Sound s' := by
  cases goes_of_step h with
  | @call t hdone =>
    have hholds : Phase.acquiring.holds = (s.phase t).holds := (not_holds_of_done hdone).symm
    exact ⟨hi.owner_goTo hholds, hi.absent_goTo (by simp), hi.started,
      hi.shared_goTo (by simp [Phase.connection?])⟩
  | @acquire t hp hm =>
    refine ⟨fun u => ?_, hi.absent_goTo (by simp), hi.started,
      hi.shared_goTo (by simp [Phase.connection?])⟩
    have hnone : ¬ (s.phase u).holds = true := by
      rw [hi.owner u, hm]
      simp
    rw [goTo_phase]
    split_ifs with hu
    · simp [Phase.holds, hu]
    · simp [hnone, Ne.symm hu]
  | @absent t hp hd =>
    exact ⟨hi.owner_goTo (by rw [hp]; rfl), hi.absent_goTo fun _ => hd, hi.started,
      hi.shared_goTo (by simp [Phase.connection?])⟩
  | @present t connection hp hd =>
    refine ⟨hi.owner_goTo (by rw [hp]; rfl), hi.absent_goTo (by simp), hi.started,
      hi.shared_goTo fun c hc => ?_⟩
    rw [hd]
    exact hc
  | @started t hp =>
    have hd := hi.absent t hp
    have hzero : s.started = 0 := by rw [hi.started, hd]; rfl
    refine ⟨hi.owner_goTo (by rw [hp]; rfl), fun u hu => ?_, by rw [hzero]; rfl, fun u c hu => ?_⟩
    · have hu' : (s.goTo t (.chosen s.started)).phase u = .starting := hu
      rw [goTo_phase] at hu'
      split_ifs at hu' with hne
      -- two threads would have the mutex
      have hother := (hi.owner u).mp (by rw [hu']; rfl)
      rw [(hi.owner t).mp (by rw [hp]; rfl)] at hother
      exact absurd (Option.some.inj hother).symm hne
    · have hu' : ((s.goTo t (.chosen s.started)).phase u).connection? = some c := hu
      rw [goTo_phase] at hu'
      split_ifs at hu'
      · exact hu'
      · rw [hi.shared u c hu'] at hd
        cases hd
  | @failed t hp =>
    exact ⟨hi.owner_goTo (by rw [hp]; rfl), hi.absent_goTo (by simp), hi.started,
      hi.shared_goTo (by simp [Phase.connection?])⟩
  | @made t connection hp =>
    refine ⟨hi.owner_release (by rw [hp]; rfl) rfl, hi.absent_goTo (by simp), hi.started,
      hi.shared_goTo fun c hc => ?_⟩
    exact hi.shared t c (by rw [hp]; exact hc)
  | @raised t hp =>
    exact ⟨hi.owner_release (by rw [hp]; rfl) rfl, hi.absent_goTo (by simp), hi.started,
      hi.shared_goTo (by simp [Phase.connection?])⟩

theorem sound_of_reachable {ok : State T → Act T → Prop}
    (h : Reachable DefaultConnection.step ok (init T) s) : Sound s :=
  h.invariant sound_init fun _ _ _ _ hs hi => hi.step hs

theorem Sound.kept (hi : Sound s) (h : DefaultConnection.step s a = some s') {connection : ℕ}
    (hd : s.defConnection = some connection) : s'.defConnection = some connection := by
  cases goes_of_step h with
  | call | acquire | absent | present | failed | made | raised => exact hd
  | @started t hp =>
    rw [hi.absent t hp] at hd
    cases hd

structure Clients (es : List ℕ) (s : State T) : Prop where
  sound : Sound s
  shared : ∀ c ∈ es, s.defConnection = some c
  listed : ∀ t c, s.phase t = .made c → c ∈ es

theorem Clients.step {es : List ℕ} (hi : Clients es s) (h : DefaultConnection.step s a = some s') :
    Clients (es ++ made s a) s' := by
  refine ⟨hi.sound.step h, fun c hc => ?_, fun t c hc => ?_⟩
  · rcases List.mem_append.mp hc with hc | hc
    · exact hi.sound.kept h (hi.shared c hc)
    · cases goes_of_step h with
      | @made t connection hp =>
        rw [DefaultConnection.made, hp] at hc
        obtain rfl := List.mem_singleton.mp hc
        exact hi.sound.shared t c (by rw [hp]; rfl)
      | @raised t hp =>
        rw [DefaultConnection.made, hp] at hc
        cases hc
      | call | acquire | absent | present | started | failed => cases hc
  · have hgoTo : ∀ {u : T} {p : Phase}, (∀ d, p ≠ .made d) → (s.goTo u p).phase t = .made c →
        c ∈ es ++ made s a := by
      intro u p hp hphase
      rw [goTo_phase] at hphase
      split_ifs at hphase
      · exact absurd hphase (hp c)
      · exact List.mem_append_left _ (hi.listed t c hphase)
    cases goes_of_step h with
    | call | acquire | absent | present | started | failed | raised => exact hgoTo (by simp) hc
    | @made u connection hp =>
      have hc' : (s.goTo u (.made connection)).phase t = .made c := hc
      rw [goTo_phase] at hc'
      split_ifs at hc'
      · obtain rfl := Phase.made.inj hc'
        refine List.mem_append_right _ ?_
        rw [DefaultConnection.made, hp]
        exact List.mem_singleton_self _
      · exact List.mem_append_left _ (hi.listed t c hc')

/-! The constructors return. -/

def Phase.left : Phase → ℕ
  | .acquiring => 4
  | .looking => 3
  | .starting => 2
  | .chosen _ | .failed => 1
  | .out | .made _ | .raised => 0

theorem left_step (h : DefaultConnection.step s a = some s') (hok : Finishing s a) :
    ∃ t p, s'.phase = (s.goTo t p).phase ∧ p.left < (s.phase t).left := by
  cases goes_of_step h with
  | call => cases hok
  | acquire hp | absent hp | present hp | started hp | failed hp | made hp | raised hp =>
    refine ⟨_, _, rfl, ?_⟩
    rw [hp]
    simp [Phase.left]

/-- The threads that have called the constructor are among these. -/
def Callers (F : Finset T) (s : State T) : Prop := ∀ t ∉ F, s.phase t = .out

theorem callers_of_reachable {ok : State T → Act T → Prop}
    (h : Reachable DefaultConnection.step ok (init T) s) : ∃ F, Callers F s := by
  refine h.invariant_of_reachable (fun s => ∃ F, Callers F s) ⟨∅, fun t _ => rfl⟩
    fun s a s' _ _ hs hi => ?_
  obtain ⟨F, hF⟩ := hi
  have hgoTo : ∀ u p, s'.phase = (s.goTo u p).phase → ∃ F, Callers F s' := by
    intro u p hphase
    refine ⟨insert u F, fun t ht => ?_⟩
    obtain ⟨hne, ht⟩ := not_or.mp (Finset.mem_insert.not.mp ht)
    rw [hphase, goTo_phase, if_neg hne]
    exact hF t ht
  cases goes_of_step hs with
  | call | acquire | absent | present | started | failed | made | raised => exact hgoTo _ _ rfl

theorem Sound.moves (hi : Sound s) (ht : (s.phase t).done = false) :
    ∃ a s', Finishing s a ∧ DefaultConnection.step s a = some s' := by
  have howner : ∀ u, (s.phase u).holds = true →
      ∃ a s', Finishing s a ∧ DefaultConnection.step s a = some s' := by
    intro u hu
    cases hp : s.phase u with
    | looking =>
      cases hd : s.defConnection with
      | none => exact ⟨.look u, _, trivial, by rw [DefaultConnection.step, if_pos hp, hd]⟩
      | some connection =>
        exact ⟨.look u, _, trivial, by rw [DefaultConnection.step, if_pos hp, hd]⟩
    | starting =>
      exact ⟨.start u true, _, trivial, by rw [DefaultConnection.step, if_pos hp]; rfl⟩
    | chosen | failed => exact ⟨.release u, _, trivial, by rw [DefaultConnection.step, hp]⟩
    | out | acquiring | made | raised =>
      rw [hp] at hu
      cases hu
  cases hm : s.mutex with
  | some u => exact howner u ((hi.owner u).mpr hm)
  | none =>
    cases hp : s.phase t with
    | acquiring =>
      exact ⟨.acquire t, _, trivial, by rw [DefaultConnection.step, if_pos ⟨hp, hm⟩]⟩
    | looking | starting | chosen | failed => exact howner t (by rw [hp]; rfl)
    | out | made | raised =>
      rw [hp] at ht
      cases ht

theorem callers_step {F : Finset T} (hF : Callers F s) (h : DefaultConnection.step s a = some s')
    (hok : Finishing s a) :
    Callers F s' ∧ ∑ t ∈ F, (s'.phase t).left < ∑ t ∈ F, (s.phase t).left := by
  obtain ⟨t, p, hphase, hless⟩ := left_step h hok
  have ht : t ∈ F := by
    by_contra hnot
    rw [hF t hnot] at hless
    exact absurd hless (Nat.not_lt_zero _)
  refine ⟨fun u hu => ?_, Finset.sum_lt_sum (fun u _ => ?_) ⟨t, ht, ?_⟩⟩
  · have hne : u ≠ t := by
      rintro rfl
      exact hu ht
    rw [hphase, goTo_phase, if_neg hne]
    exact hF u hu
  · rw [hphase, goTo_phase]
    split_ifs with hu
    · rw [hu]
      exact hless.le
    · exact le_rfl
  · rw [hphase, goTo_phase, if_pos rfl]
    exact hless

/-- However the threads that make clients interleave, and whether or not the instances can be
started: at most one instance is started, all clients ever made share it, one thread at a time looks
for it, and whoever has called the constructor returns from it, with the mutex free in the end. -/
theorem default_connection_shared {es : List ℕ}
    (h : Logged DefaultConnection.step free made (init T) es s) :
    (s.started ≤ 1 ∧ (∀ c ∈ es, ∀ d ∈ es, c = d) ∧ (∀ t c, s.phase t = .made c → c ∈ es) ∧
        ∀ t u, (s.phase t).holds = true → (s.phase u).holds = true → t = u) ∧
      Inevitable DefaultConnection.step Finishing
        (fun s' => s'.mutex = none ∧ ∀ t, (s'.phase t).done = true) s := by
  have hclients : Clients es s :=
    h.invariant Clients ⟨sound_init, by simp, by simp [init]⟩
      fun _ _ _ _ _ _ hs hi => hi.step hs
  have hi := hclients.sound
  refine ⟨⟨?_, fun c hc d hd => ?_, hclients.listed, fun t u ht hu => ?_⟩, ?_⟩
  · rw [hi.started]
    cases s.defConnection <;> simp
  · exact Option.some.inj ((hclients.shared c hc).symm.trans (hclients.shared d hd))
  · have ht' := (hi.owner t).mp ht
    exact Option.some.inj (ht'.symm.trans ((hi.owner u).mp hu))
  · obtain ⟨F, hF⟩ := callers_of_reachable h.reachable
    refine inevitable_of_measure Nat.lt_wfRel.wf (fun s => ∑ t ∈ F, (s.phase t).left)
      (fun s => Sound s ∧ Callers F s) (fun s hi => ?_) (fun s a s' hi hok hs => ?_) s ⟨hi, hF⟩
    · by_cases hall : ∀ t, (s.phase t).done = true
      · refine .inl ⟨?_, hall⟩
        by_contra hm
        obtain ⟨t, ht⟩ := Option.ne_none_iff_exists'.mp hm
        have hholds := (hi.1.owner t).mpr ht
        rw [not_holds_of_done (hall t)] at hholds
        cases hholds
      · obtain ⟨t, ht⟩ := not_forall.mp hall
        exact .inr (hi.1.moves (by simpa using ht))
    · obtain ⟨hF', hless⟩ := callers_step hi.2 hs hok
      exact .inr ⟨⟨hi.1.step hs, hF'⟩, hless⟩

/-- The first instance cannot be started; another thread makes a client with the next, while the
first one tries again. -/
def secondAttempt : List (Act Bool) :=
  [.call false, .call true, .acquire false, .look false, .start false false, .release false,
    .acquire true, .call false, .look true, .start true true, .release true, .acquire false]

theorem default_connection_shared_secondAttempt : ∃ es s,
    trace DefaultConnection.step free made (init Bool) secondAttempt = some (es, s) ∧
    (es = [0] ∧ s.phase true = .made 0 ∧ s.phase false = .looking ∧ s.mutex = some false) ∧
    (s.started ≤ 1 ∧ (∀ c ∈ es, ∀ d ∈ es, c = d) ∧ (∀ t c, s.phase t = .made c → c ∈ es) ∧
        ∀ t u, (s.phase t).holds = true → (s.phase u).holds = true → t = u) ∧
      Inevitable DefaultConnection.step Finishing
        (fun s' => s'.mutex = none ∧ ∀ t, (s'.phase t).done = true) s := by
  obtain ⟨es, s, htrace, hphases⟩ : ∃ es s,
      trace DefaultConnection.step free made (init Bool) secondAttempt = some (es, s) ∧
      es = [0] ∧ s.phase true = .made 0 ∧ s.phase false = .looking ∧ s.mutex = some false :=
    exists_of_trace (by decide +kernel)
  exact ⟨es, s, htrace, hphases, default_connection_shared (logged_of_trace htrace)⟩

end Xaprun.DefaultConnection
