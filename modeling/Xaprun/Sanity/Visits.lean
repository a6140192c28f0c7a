import Xaprun.Proofs.HalfClose

/-! The pass of the main loop over the connections: each descriptor is visited once, and no write
is made without something to write. -/

namespace Xaprun

open Frames Runs Outbox

def Visit.conn : Visit → ℤ
  | .read c | .write c => c

namespace Server

variable {write : Writer} {capacity : ℕ} {s s' : Server} {a : Act}

theorem read_mem_visits {connections : SortedMap ℤ Connection}
    {readable writable : List ℤ} {c : ℤ} :
    .read c ∈ visits connections readable writable ↔ c ∈ readable ∧ c ∈ connections := by
  constructor
  · intro h
    refine ⟨?_, mem_of_visit h⟩
    obtain ⟨i, -, hv⟩ := List.mem_flatMap.mp h
    rcases List.mem_append.mp hv with hv | hv
    · split_ifs at hv with hr
      · obtain rfl := Visit.read.inj (List.mem_singleton.mp hv)
        exact hr
      · cases hv
    · split_ifs at hv
      · cases List.mem_singleton.mp hv
      · cases hv
  · rintro ⟨hr, hc⟩
    obtain ⟨i, hi⟩ := SortedMap.mem_iff_exists.mp hc
    refine List.mem_flatMap.mpr ⟨(c, i), SortedMap.mem_toList_iff.mpr hi, List.mem_append_left _ ?_⟩
    rw [if_pos hr]
    exact List.mem_singleton_self _

theorem write_mem_visits {connections : SortedMap ℤ Connection}
    {readable writable : List ℤ} {c : ℤ} :
    .write c ∈ visits connections readable writable ↔
      c ∈ writable ∧ ∃ i, connections.find c = some i ∧ i.writeBuf ≠ [] := by
  constructor
  · intro h
    obtain ⟨i, hi, hv⟩ := List.mem_flatMap.mp h
    rcases List.mem_append.mp hv with hv | hv
    · split_ifs at hv
      · cases List.mem_singleton.mp hv
      · cases hv
    · split_ifs at hv with hw
      · obtain rfl := Visit.write.inj (List.mem_singleton.mp hv)
        exact ⟨hw.1, i.2, SortedMap.mem_toList_iff.mp hi, hw.2⟩
      · cases hv
  · rintro ⟨hw, i, hi, hne⟩
    refine List.mem_flatMap.mpr
      ⟨(c, i), SortedMap.mem_toList_iff.mpr hi, List.mem_append_right _ ?_⟩
    rw [if_pos ⟨hw, hne⟩]
    exact List.mem_singleton_self _

theorem nodup_visits (connections : SortedMap ℤ Connection) (readable writable : List ℤ) :
    (visits connections readable writable).Nodup := by
  have hconn : ∀ i : ℤ × Connection, ∀ v ∈ (if i.1 ∈ readable then [Visit.read i.1] else []) ++
      (if i.1 ∈ writable ∧ i.2.writeBuf ≠ [] then [Visit.write i.1] else []), v.conn = i.1 := by
    intro i v hv
    rcases List.mem_append.mp hv with hv | hv
    · split_ifs at hv
      · rw [List.mem_singleton.mp hv]
        rfl
      · cases hv
    · split_ifs at hv
      · rw [List.mem_singleton.mp hv]
        rfl
      · cases hv
  refine List.nodup_flatMap.mpr ⟨fun i _ => ?_, connections.sorted.imp fun {i j} hlt v hi hj => ?_⟩
  · split_ifs <;> simp
  · have hne := (hconn i v hi).symm.trans (hconn j v hj)
    exact absurd hne hlt.ne

/-- What a pass looks like after a step. -/
inductive Passes (s : Server) : Act → Pass → Prop
  | selected {readable writable : List ℤ} {pass : Pass} : s.main = .select →
      pass.todo = visits s.connections readable writable → Passes s (.select readable writable) pass
  | same {a : Act} {pass pass' : Pass} : pass ∈ passOf s.main → pass'.todo = pass.todo →
      (∀ data, a ≠ .connRead data) → (∀ n, a ≠ .connWrite n) → a ≠ .endPass → Passes s a pass'
  | read {c : ℤ} {data : Option Bytes} {pass pass' : Pass} : pass ∈ passOf s.main →
      pass.todo = .read c :: pass'.todo → Passes s (.connRead data) pass'
  | wrote {c : ℤ} {n : Option ℕ} {pass pass' : Pass} : s.main = .conns pass →
      pass.todo = .write c :: pass'.todo → Passes s (.connWrite n) pass'

theorem passes_of_connRead {data : Option Bytes} {c : ℤ} {todo : List Visit} {closed : SortedSet ℤ}
    (hm : s.main = .conns ⟨.read c :: todo, closed⟩)
    (h : s.connRead write c ⟨todo, closed⟩ data = some s') :
    ∀ pass' ∈ passOf s'.main, Passes s (.connRead data) pass' := by
  have hpass : (⟨.read c :: todo, closed⟩ : Pass) ∈ passOf s.main := by rw [hm]; rfl
  have htodo : ∀ pass' ∈ passOf s'.main, pass'.todo = todo := by
    intro pass' hp'
    rcases data with - | - | ⟨b, bs⟩
    · obtain rfl := Option.some.inj h
      obtain rfl := Option.some.inj hp'
      rfl
    · obtain rfl := Option.some.inj h
      obtain rfl := Option.some.inj hp'
      rfl
    · obtain ⟨-, h⟩ := Option.ite_none_right_eq_some.mp h
      obtain ⟨i, -, rfl⟩ := Option.map_eq_some_iff.mp h
      obtain rfl := Option.some.inj hp'
      rfl
  exact fun pass' hp' => .read hpass (by rw [htodo pass' hp'])

theorem passes_of_connWrite {written : Option ℕ} {c : ℤ} {todo : List Visit} {closed : SortedSet ℤ}
    (hm : s.main = .conns ⟨.write c :: todo, closed⟩)
    (h : s.connWrite c ⟨todo, closed⟩ written = some s') :
    ∀ pass' ∈ passOf s'.main, Passes s (.connWrite written) pass' := by
  have htodo : ∀ pass' ∈ passOf s'.main, pass'.todo = todo := by
    intro pass' hp'
    cases written with
    | none =>
      obtain rfl := Option.some.inj h
      obtain rfl := Option.some.inj hp'
      rfl
    | some n =>
      obtain ⟨-, h⟩ := Option.ite_none_right_eq_some.mp h
      obtain ⟨i, -, h⟩ := Option.bind_eq_some_iff.mp h
      obtain ⟨-, h⟩ := Option.ite_none_right_eq_some.mp h
      obtain rfl := Option.some.inj h
      obtain rfl := Option.some.inj hp'
      rfl
  exact fun pass' hp' => .wrote hm (by rw [htodo pass' hp'])

/-- The main thread stays in its pass, or leaves it. -/
theorem pass_of_moves (h : Moves write capacity s a s')
    (hselect : ∀ readable writable, a ≠ .select readable writable)
    (hread : ∀ data, a ≠ .connRead data) (hwrite : ∀ n, a ≠ .connWrite n) (hend : a ≠ .endPass) :
    ∀ pass' ∈ passOf s'.main, pass' ∈ passOf s.main := by
  cases h with
  | quiet | respond | nudged | shutdown | joined => exact fun _ hp' => hp'
  | loop | leave | interrupted | readShutdown | stop | join => simp [passOf]
  | selectNudge | selectConns => exact absurd rfl (hselect _ _)
  | readNudge hm | dispatchResponses hm | answer hm | handOver hm | writeNudge hm
  | endDispatch hm =>
    rw [hm]
    exact fun _ hp' => hp'
  | connSkip | connRead => exact absurd rfl (hread _)
  | connWrite => exact absurd rfl (hwrite _)
  | endPass => exact absurd rfl hend
  | reap _ _ hmain => rcases hmain with rfl | rfl <;> simp [passOf]

theorem passes_of_step (h : s.step write capacity a = some s') :
    ∀ pass' ∈ passOf s'.main, Passes s a pass' := by
  cases a with
  | connRead data =>
    simp only [step] at h
    split at h
    · rename_i c todo closed hm
      exact passes_of_connRead hm h
    · cases h
  | connWrite written =>
    simp only [step] at h
    split at h
    · rename_i c todo closed hm
      exact passes_of_connWrite hm h
    · cases h
  | select readable writable =>
    obtain ⟨hm, h⟩ := Option.ite_none_right_eq_some.mp h
    split_ifs at h
    · obtain rfl := Option.some.inj h
      intro pass' hp'
      obtain rfl := Option.some.inj hp'
      exact .selected hm rfl
    · obtain rfl := Option.some.inj h
      intro pass' hp'
      obtain rfl := Option.some.inj hp'
      exact .selected hm rfl
  | endPass =>
    simp only [step] at h
    split at h
    · obtain rfl := Option.some.inj h
      simp [passOf]
    · cases h
  | thread | shutdown | loop | interrupted | readNudge | dispatchResponses | execute | writeNudge
  | endDispatch
  | stop | join | joined | reap =>
    have hsub := pass_of_moves (moves_of_step h) (by simp) (by simp) (by simp) (by simp)
    exact fun pass' hp' => .same (hsub pass' hp') rfl (by simp) (by simp) (by simp)

/-- Each visit of the pass is to be made once, a write has something to write, and the nudge socket
is read when there is something in it. -/
structure Orderly (s : Server) : Prop where
  once : ∀ pass ∈ passOf s.main, pass.todo.Nodup
  due : ∀ pass ∈ passOf s.main, ∀ c, .write c ∈ pass.todo → ∃ i, s.connections.find c = some i ∧
    i.writeBuf ≠ []
  told : ∀ pass, s.main = .reading pass → s.nudge ≠ []

theorem orderly_init (useStdio : Bool) : Orderly (init useStdio) where
  once := by simp [init, passOf]
  due := by simp [init, passOf]
  told := by simp [init]

theorem due_of_touches {connections : SortedMap ℤ Connection} (h : Touches s a connections) {c : ℤ}
    (hend : a ≠ .endPass) (hwrite : ∀ n, a = .connWrite (some n) → ∃ c' ≠ c, ∃ todo closed,
      s.main = .conns ⟨.write c' :: todo, closed⟩)
    (hdue : ∃ i, s.connections.find c = some i ∧ i.writeBuf ≠ []) :
    ∃ i, connections.find c = some i ∧ i.writeBuf ≠ [] := by
  obtain ⟨i, hi, hne⟩ := hdue
  cases h with
  | same => exact ⟨i, hi, hne⟩
  | dispatched =>
    refine ⟨_, by rw [find_dispatchResponses, hi]; rfl, ?_⟩
    simp [hne]
  | @read c' data readBuf =>
    rw [SortedMap.find_modify]
    split_ifs with hc
    · subst hc
      exact ⟨{ i with readBuf }, by rw [hi]; rfl, hne⟩
    · exact ⟨i, hi, hne⟩
  | @wrote c' n _ todo closed hm =>
    obtain ⟨c'', hne', todo', closed', hm'⟩ := hwrite n rfl
    rw [hm] at hm'
    simp only [MainPc.conns.injEq, Pass.mk.injEq, List.cons.injEq, Visit.write.injEq] at hm'
    rw [SortedMap.find_modify, if_neg fun hc => hne' (hm'.1.1.symm.trans hc.symm)]
    exact ⟨i, hi, hne⟩
  | closed => exact absurd rfl hend

theorem orderly_step (h : s.step write capacity a = some s') (hi : Orderly s) : Orderly s' where
  once := fun pass' hp' => by
    cases passes_of_step h pass' hp' with
    | selected _ htodo =>
      rw [htodo]
      exact nodup_visits _ _ _
    | same hp htodo =>
      rw [htodo]
      exact hi.once _ hp
    | read hp htodo =>
      have := hi.once _ hp
      rw [htodo] at this
      exact (List.nodup_cons.mp this).2
    | wrote hm htodo =>
      have := hi.once _ (by rw [hm]; rfl)
      rw [htodo] at this
      exact (List.nodup_cons.mp this).2
  due := fun pass' hp' c hc => by
    have htouches := touches_of_step h
    cases passes_of_step h pass' hp' with
    | selected _ htodo =>
      rw [htodo] at hc
      exact due_of_touches htouches (by simp) (by simp) (write_mem_visits.mp hc).2
    | same hp htodo hread hwrite hend =>
      rw [htodo] at hc
      exact due_of_touches htouches hend (fun n hn => absurd hn (hwrite _)) (hi.due _ hp c hc)
    | read hp htodo =>
      exact due_of_touches htouches (by simp) (by simp)
        (hi.due _ hp c (htodo ▸ List.mem_cons_of_mem _ hc))
    | @wrote c' n pass _ hm htodo =>
      have hnodup := hi.once pass (by rw [hm]; rfl)
      rw [htodo] at hnodup
      have hne : c' ≠ c := by
        rintro rfl
        exact (List.nodup_cons.mp hnodup).1 hc
      refine due_of_touches htouches (by simp)
        (fun m _ => ⟨c', hne, pass'.todo, pass.closedConnections, ?_⟩)
        (hi.due pass (by rw [hm]; rfl) c (htodo ▸ List.mem_cons_of_mem _ hc))
      rw [hm, ← htodo]
  told := fun pass hm => by
    cases moves_of_step h with
    | quiet | respond | joined => exact hi.told pass hm
    | nudged | shutdown => simp
    | selectNudge _ hn => exact hn
    | loop | leave | interrupted | selectConns | readNudge | readShutdown | dispatchResponses
    | connSkip | connRead
    | connWrite | endPass | answer | handOver | writeNudge | endDispatch | stop | join => simp at hm
    | reap _ _ hend => rcases hend with rfl | rfl <;> simp at hm

theorem orderly_of_reachable {useStdio : Bool} {ok : Server → Act → Prop}
    (h : Reachable (step write capacity) ok (init useStdio) s) : Orderly s :=
  h.invariant (orderly_init useStdio) fun _ _ _ _ hs hi => orderly_step hs hi

end Server

end Xaprun
