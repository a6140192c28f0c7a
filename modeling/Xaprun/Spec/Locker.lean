import Xaprun.Lib.Runs
import Mathlib.Logic.Function.Basic

/-! Scoped locking (`src/server/locker.h`). `κ` is the type of contexts, one for each
`ContextLocker` object on some thread's stack. An operation that would wait for the
mutex is not enabled. -/

namespace Xaprun.Locking

variable {κ : Type} [DecidableEq κ]

structure State (κ : Type) where
  /-- the context whose lock operation was the last to get the mutex and not yet undone -/
  owner : Option κ
  /-- the `locked` flag of every live `ContextLocker` -/
  locked : κ → Option Bool
  /-- an unlock was issued on a mutex that its context did not hold -/
  misused : Bool

def init (κ : Type) : State κ := ⟨none, fun _ => none, false⟩

def lockerLock (s : State κ) (c : κ) : Option (State κ) :=
  if s.owner = none then some { s with owner := some c } else none

def lockerUnlock (s : State κ) (c : κ) : State κ :=
  { s with owner := none, misused := s.misused || decide (s.owner ≠ some c) }

def setLocked (s : State κ) (c : κ) (l : Option Bool) : State κ :=
  { s with locked := Function.update s.locked c l }

def lock (s : State κ) (c : κ) : Option (State κ) :=
  match s.locked c with
  | none => none
  | some true => some s
  | some false => (lockerLock s c).map (setLocked · c (some true))

def unlock (s : State κ) (c : κ) : Option (State κ) :=
  match s.locked c with
  | none => none
  | some false => some s
  | some true => some (setLocked (lockerUnlock s c) c (some false))

/-- The constructor: `locked(true)`, then `lock()`. -/
def construct (s : State κ) (c : κ) : Option (State κ) :=
  match s.locked c with
  | none => lock (setLocked s c (some true)) c
  | some _ => none

def destroy (s : State κ) (c : κ) : Option (State κ) := (unlock s c).map (setLocked · c none)

inductive Op (κ : Type) where
  | construct (c : κ)
  | lock (c : κ)
  | unlock (c : κ)
  | destroy (c : κ)
  deriving DecidableEq

def step (s : State κ) : Op κ → Option (State κ)
  | .construct c => construct s c
  | .lock c => lock s c
  | .unlock c => unlock s c
  | .destroy c => destroy s c

/-- A flag is true exactly when its context holds the mutex, at most one is, and no unlock
has gone wrong. A context is in a protected body while its flag is true, so these bodies
exclude each other. -/
structure Excludes (s : State κ) : Prop where
  flag : ∀ c, s.locked c = some true ↔ s.owner = some c
  unique : ∀ c c', s.locked c = some true → s.locked c' = some true → c = c'
  used : s.misused = false

/-- The functions of the pool that open with a `ContextLocker` on `workerlist_mutex`. -/
inductive PoolBody where
  | sendToWorker | workerMessageHandled | workerExited | stop | join
  deriving DecidableEq

end Xaprun.Locking
