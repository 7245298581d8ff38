import ConstraintSearch.Variable
import ConstraintSearch.Schedule.Queue
import ConstraintSearch.Schedule.Watch

/-!
# The state of propagation

The variables of a space, the subscriptions to their changes, and the propagators that wait to run.
Every narrowing of a variable passes through the state, which wakes the subscribers of the change.

* `State.restrict`, `State.narrowSet`, `State.narrowFloat` narrow a variable and wake;
* `State.fail` marks the state as failed and cancels all scheduled propagators. In a failed state
  every narrowing reports `Event.failed` and changes nothing.

`Propagation` is the monad in which propagators and branchers act on a state: an inconsistency ends
the run but keeps the state reached, a fault does not.
-/

namespace ConstraintSearch

structure State where
  store : Store
  watches : WatchLists
  queue : Queue
  /-- The cost class of each propagator. -/
  costs : Table Cost
  failed : Bool

namespace State

def ofPolicy (policy : Policy) : State := ⟨∅, ∅, Queue.ofPolicy policy, ∅, false⟩

/-- Mark the state as failed; nothing is scheduled in a failed state. -/
def fail (s : State) : State := { s with failed := true, queue := s.queue.clear }

/-- Subscribe a propagator to the changes that wake it. -/
def subscribe (s : State) (propagator : Nat) (subscriptions : List (VarRef × Wake)) : State :=
  { s with
    watches := subscriptions.foldl (fun w x => w.subscribe propagator x.1 x.2) s.watches }

/-- Note the cost class of a propagator. -/
def classify (s : State) (propagator : Nat) (cost : Cost) : State :=
  { s with costs := (s.costs.accommodate propagator cost).set propagator cost }

/-- Schedule a propagator under its cost class. -/
def schedule (s : State) (propagator : Nat) : State :=
  { s with queue := s.queue.schedule propagator ((s.costs.get? propagator).getD .linearLow) }

/-- The propagator that is executed next, which is then no longer scheduled. -/
def pop (s : State) : Option Nat × State :=
  let (propagator, queue) := s.queue.pop
  (propagator, { s with queue })

/-- Wake the subscribers of `x` after a change, in the order of their subscriptions. -/
def wake (s : State) (x : VarRef) (event : Event) : State :=
  (s.watches.watchers x).foldl
    (fun s subscription =>
      if subscription.wake.triggeredBy event then s.schedule subscription.propagator else s)
    s

/-- Act on the outcome of a narrowing of `x`. -/
def notify (s : State) (x : VarRef) (event : Event) : State :=
  if event.isFailed then s.fail
  else if event.isModified then s.wake x event
  else s

/-- Narrow `x` by an operation on the store, unless the state has failed. -/
def narrow (s : State) (x : VarRef) (operation : Store → Except Fault (Event × Store)) :
    Except Fault (Event × State) :=
  if s.failed then return (.failed, s)
  else do
    let (event, store) ← operation s.store
    return (event, { s with store }.notify x event)

/-- Keep the values of `x` that stand in the relation to `v`. -/
def restrict (s : State) (x : IntVar) (relation : Relation) (v : Int) :
    Except Fault (Event × State) :=
  s.narrow x.ref (x.restrict relation v)

def narrowSet (s : State) (index : Nat) (narrowing : SetDomain → Narrowing SetDomain) :
    Except Fault (Event × State) :=
  s.narrow (.set index) (·.narrowSet index narrowing)

def narrowFloat (s : State) (index : Nat) (narrowing : FloatDomain → Narrowing FloatDomain) :
    Except Fault (Event × State) :=
  s.narrow (.float index) (·.narrowFloat index narrowing)

theorem restrict_of_failed {s : State} (h : s.failed = true) (x : IntVar) (relation : Relation)
    (v : Int) : s.restrict x relation v = .ok (.failed, s) := by
  simp [restrict, narrow, h, pure, Except.pure]

end State

/-- Why a propagator or a brancher cannot go on. -/
inductive Inconsistency
  /-- A domain would hold no value. -/
  | emptyDomain
  /-- No assignment satisfies the constraint. -/
  | conflict
  deriving DecidableEq, Repr

/-- Actions on a state that end in an inconsistency or a fault. -/
abbrev Propagation := ExceptT Inconsistency (StateT State (Except Fault))

namespace Propagation

/-- Read the store. -/
def reading {α : Type} (f : Store → Except Fault α) : Propagation α := do
  f (← get).store

/-- Perform a narrowing; a failed one is an inconsistency. -/
def narrowing (f : State → Except Fault (Event × State)) : Propagation Event := fun s => do
  let (event, s) ← f s
  return (if event.isFailed then .error .emptyDomain else .ok event, s)

/-- Keep the values of `x` that stand in the relation to `v`. -/
def restrict (x : IntVar) (relation : Relation) (v : Int) : Propagation Event :=
  narrowing (·.restrict x relation v)

def setUpper (x : IntVar) (v : Int) : Propagation Event := restrict x .atMost v

def setLower (x : IntVar) (v : Int) : Propagation Event := restrict x .atLeast v

def assign (x : IntVar) (v : Int) : Propagation Event := restrict x .equal v

def remove (x : IntVar) (v : Int) : Propagation Event := restrict x .notEqual v

/-- Keep the given values of `x`, by removing the others one after the other. -/
def restrictTo (x : IntVar) (values : List Int) : Propagation Event := do
  let removed := (← reading x.values).filter fun v => !values.contains v
  removed.foldlM (fun strongest v => return strongest.strongest (← remove x v)) .none

def includeElement (set : Nat) (v : Int) : Propagation Event :=
  narrowing (·.narrowSet set (·.including v))

def excludeElement (set : Nat) (v : Int) : Propagation Event :=
  narrowing (·.narrowSet set (·.excluding v))

def setCardinality (set : Nat) (least greatest : Nat) : Propagation Event :=
  narrowing (·.narrowSet set (·.withCardinality least greatest))

def setFloatUpper (float : Nat) (v : Float) : Propagation Event :=
  narrowing (·.narrowFloat float (·.withUpper v))

def setFloatLower (float : Nat) (v : Float) : Propagation Event :=
  narrowing (·.narrowFloat float (·.withLower v))

end Propagation

end ConstraintSearch
