import Xaprun.Sanity.Server
import Xaprun.Spec.History

/-! What the steps of the server do to the connections and to the queue of responses. -/

namespace Xaprun.Server

open Frames Runs Outbox

variable {write : Writer} {capacity : ℕ} {s s' : Server} {a : Act}

/-- What a step makes of the connections. -/
inductive Touches (s : Server) : Act → SortedMap ℤ Connection → Prop
  | same {a : Act} : a ≠ .dispatchResponses → (∀ n, a ≠ .connWrite (some n)) → a ≠ .endPass →
      Touches s a s.connections
  | dispatched {pass : Pass} : s.main = .draining pass →
      Touches s .dispatchResponses (Server.dispatchResponses s.connections s.outgoing)
  | read {c : ℤ} {data readBuf : Bytes} :
      Touches s (.connRead (some data)) (s.connections.modify c fun i => { i with readBuf })
  | wrote {c : ℤ} {n : ℕ} {i : Connection} {todo : List Visit} {closed : SortedSet ℤ} :
      s.main = .conns ⟨.write c :: todo, closed⟩ → s.connections.find c = some i →
        n ≤ i.writeBuf.length →
      Touches s (.connWrite (some n))
        (s.connections.modify c fun i => { i with writeBuf := i.writeBuf.drop n })
  | closed {closed : SortedSet ℤ} : s.main = .conns ⟨[], closed⟩ →
      Touches s .endPass (closeAll s.connections closed)

theorem touches_of_connRead {data : Option Bytes} {c : ℤ} {pass : Pass}
    (h : s.connRead write c pass data = some s') : Touches s (.connRead data) s'.connections := by
  match data with
  | none =>
    obtain rfl := Option.some.inj h
    exact .same (by simp) (by simp) (by simp)
  | some [] =>
    obtain rfl := Option.some.inj h
    exact .same (by simp) (by simp) (by simp)
  | some (b :: bs) =>
    obtain ⟨-, h⟩ := Option.ite_none_right_eq_some.mp h
    obtain ⟨i, -, rfl⟩ := Option.map_eq_some_iff.mp h
    exact .read

theorem touches_of_connWrite {written : Option ℕ} {c : ℤ} {todo : List Visit} {closed : SortedSet ℤ}
    (hm : s.main = .conns ⟨.write c :: todo, closed⟩)
    (h : s.connWrite c ⟨todo, closed⟩ written = some s') :
    Touches s (.connWrite written) s'.connections := by
  cases written with
  | none =>
    obtain rfl := Option.some.inj h
    exact .same (by simp) (by simp) (by simp)
  | some n =>
    obtain ⟨-, h⟩ := Option.ite_none_right_eq_some.mp h
    obtain ⟨i, hi, h⟩ := Option.bind_eq_some_iff.mp h
    obtain ⟨hle, h⟩ := Option.ite_none_right_eq_some.mp h
    obtain rfl := Option.some.inj h
    exact .wrote hm hi hle

theorem touches_of_step (h : s.step write capacity a = some s') : Touches s a s'.connections := by
  cases a with
  | dispatchResponses =>
    simp only [step] at h
    split at h
    · rename_i pass hm
      obtain rfl := Option.some.inj h
      exact .dispatched hm
    · simp at h
  | connRead data =>
    simp only [step] at h
    split at h
    · exact touches_of_connRead h
    · simp at h
  | connWrite written =>
    simp only [step] at h
    split at h
    · rename_i c todo closed hm
      exact touches_of_connWrite hm h
    · simp at h
  | endPass =>
    simp only [step] at h
    split at h
    · rename_i closed hm
      obtain rfl := Option.some.inj h
      exact .closed hm
    · simp at h
  | thread | shutdown | loop | interrupted | select | readNudge | execute | writeNudge | endDispatch
  | stop
  | join | joined | reap =>
    have hsame : s'.connections = s.connections := by
      cases moves_of_step h <;> rfl
    rw [hsame]
    exact .same (by simp) (by simp) (by simp)

theorem response_eq_answer (t : WorkerThread) : t.response = t.answer.map Prod.snd := by
  unfold WorkerThread.response WorkerThread.answer
  cases t.pc with
  | handling msg => simp [Function.comp_def]
  | entering | waiting | nudging | leaving | left | ended => rfl

/-- The queue is emptied by `dispatch_responses` and else grows by what is pushed. -/
theorem outgoing_step (h : s.step write capacity a = some s') (ha : a ≠ .dispatchResponses) :
    s'.outgoing = s.outgoing ++ pushed (s.emit a) := by
  unfold pushed
  cases moves_of_step h with
  | @quiet b workers hq =>
    cases b with
    | enter | receive | workerExited | ends => simp [emit]
    | sendToWorker | requestExit | stop | join | joined | reap | respond | nudged =>
      simp [quiet] at hq
  | @respond w =>
    cases hw : s.workers.running w with
    | none => simp [emit, hw]
    | some t =>
      cases hr : t.answer with
      | none => simp [emit, hw, hr, response_eq_answer]
      | some r =>
        simp only [emit, hw, hr, response_eq_answer, Option.bind_some, Option.map_some,
          Option.toList_some]
        rfl
  | dispatchResponses => exact absurd rfl ha
  | answer hm => simp [emit, hm, Event.pushed?]
  | handOver hm => simp [emit, hm, Event.pushed?]
  | @connSkip data c todo closed _ hm hd =>
    cases data with
    | none => simp [emit]
    | some data =>
      obtain rfl : data = [] := hd
      simp [emit, hm, Event.pushed?]
  | @connRead data c _ _ _ _ hm hd =>
    cases data with
    | nil => exact absurd rfl hd
    | cons b bs => simp [emit]
  | @connWrite written pass _ _ hm =>
    cases written with
    | none => simp [emit]
    | some n =>
      simp only [emit]
      split <;> simp [Event.pushed?]
  | nudged | shutdown | loop | leave | interrupted | selectNudge | selectConns | readNudge
  | readShutdown
  | endPass | writeNudge | endDispatch | stop | join | joined | reap => simp [emit]

end Xaprun.Server
