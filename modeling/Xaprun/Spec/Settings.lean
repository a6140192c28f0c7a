import Xaprun.Spec.History
import Mathlib.Data.Finset.Card

/-! The settings that limit the workers (`src/settings.cc`), the calls of `get_worker` in
`send_to_worker`, and the number of current workers. -/

namespace Xaprun

open Frames

/-- A number as `std::cerr` writes it. -/
def signed (n : ℤ) : Bytes := if n < 0 then byte '-' :: dec n.natAbs else dec n.natAbs

structure ServerSettings where
  useStdio : Bool
  searchWorkers : ℤ
  updateWorkers : ℤ
  deriving DecidableEq, Repr

namespace ServerSettings

def default : ServerSettings := ⟨false, 10, 1⟩

/-- The return value, and the lines written to `std::cerr`. -/
def validate (settings : ServerSettings) : Bool × List Bytes :=
  let r : Bool × List Bytes :=
    if settings.searchWorkers < 1 then
      (false, [text "Error: must have at least one search worker - got " ++
        signed settings.searchWorkers])
    else (true, [])
  if settings.updateWorkers < 1 then
    (false, r.2 ++ [text "Error: must have at least one update worker - got " ++
      signed settings.updateWorkers])
  else r

theorem validate_iff (settings : ServerSettings) :
    settings.validate.1 = true ↔ 1 ≤ settings.searchWorkers ∧ 1 ≤ settings.updateWorkers := by
  unfold validate
  split_ifs <;> simp <;> omega

example : default.validate = (true, []) := by decide

end ServerSettings

/-- The current workers in the groups. -/
def WorkerPool.currentWorkers (p : WorkerPool) (groups : Bytes → Bool) : ℕ :=
  p.workers.total fun i => if groups i.group then 1 else 0

def searchGroup (group : Bytes) : Bool := decide (group = text "search")

def indexerGroup (group : Bytes) : Bool := startswith group (text "indexer_")

namespace Server

/-- The arguments of the call of `get_worker` in a step: there is one when no worker of the group
is without messages. -/
def getWorkerCall (s : Server) : Act → Option (Bytes × ℤ)
  | .execute _ =>
    match s.main with
    | .dispatching (.sendToWorker group _ :: _) _ =>
      match s.workers.pool.searchWorker group with
      | .ok none => some (group, 0)
      | _ => none
    | _ => none
  | _ => none

/-- `get_worker` is told the number of current workers in the group. -/
def Told (s : Server) (a : Act) : Prop :=
  ∀ call ∈ s.getWorkerCall a,
    call.2 = s.workers.pool.currentWorkers (fun group => decide (group = call.1))

instance (s : Server) (a : Act) : Decidable (Told s a) :=
  inferInstanceAs (Decidable (∀ call ∈ s.getWorkerCall a,
    call.2 = s.workers.pool.currentWorkers (fun group => decide (group = call.1))))

/-- No more workers than the settings allow. -/
structure WithinLimits (settings : ServerSettings) (s : Server) : Prop where
  search : s.workers.pool.currentWorkers searchGroup ≤ settings.searchWorkers
  update : s.workers.pool.currentWorkers indexerGroup ≤ settings.updateWorkers

/-- No thread made for the group has a request that it has not reported as handled. -/
def Unoccupied (group : Bytes) (s : Server) : Prop :=
  ∀ i ∈ s.workers.threads.toList,
    getWorker group = some i.2.worker → i.2.messages = [] ∧ i.2.outstanding = 0

instance (group : Bytes) (s : Server) : Decidable (Unoccupied group s) :=
  inferInstanceAs (Decidable (∀ i ∈ s.workers.threads.toList,
    getWorker group = some i.2.worker → i.2.messages = [] ∧ i.2.outstanding = 0))

/-- The groups of the updates, one for each database that has been updated. -/
def updated (es : List Event) : Finset Bytes :=
  (groups es).toFinset.filter fun group => indexerGroup group = true

/-- A request is routed only when the earlier ones for its group have been handled, and no more
databases are updated than there may be update workers. -/
def Moderate (settings : ServerSettings) (p : List Event × Server) (a : Act) : Prop :=
  ∀ group ∈ groups (p.2.emit a),
    p.2.Unoccupied group ∧ (updated (p.1 ++ p.2.emit a)).card ≤ settings.updateWorkers

instance (settings : ServerSettings) (p : List Event × Server) (a : Act) :
    Decidable (Moderate settings p a) :=
  inferInstanceAs (Decidable (∀ group ∈ groups (p.2.emit a),
    p.2.Unoccupied group ∧ (updated (p.1 ++ p.2.emit a)).card ≤ settings.updateWorkers))

end Server

end Xaprun
