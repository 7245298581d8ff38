/-!
# What happened to a domain

* `Event`: the outcome of narrowing a domain, by what was lost.
* `Wake`: the changes of a variable after which a propagator has to run again.
* `Narrowing`: the result of an operation on a domain, before it is stored.
-/

namespace ConstraintSearch

/-- The outcome of a narrowing operation. -/
inductive Event
  /-- No value would be left; nothing is changed. -/
  | failed
  /-- No value was lost. -/
  | none
  /-- Values were lost, the bounds are as before. -/
  | domain
  /-- A bound has moved. -/
  | bounds
  /-- A single value is left. -/
  | assigned
  deriving DecidableEq, Repr

namespace Event

def text : Event → String
  | .failed => "Failed"
  | .none => "None"
  | .domain => "Domain"
  | .bounds => "Bounds"
  | .assigned => "Assigned"

def isFailed (e : Event) : Bool := e = .failed

/-- Whether the domain was changed. -/
def isModified : Event → Bool
  | .domain | .bounds | .assigned => true
  | .failed | .none => false

/-- Failure is stronger than any change, and a change is the stronger the more it says. -/
def strength : Event → Nat
  | .none => 0
  | .domain => 1
  | .bounds => 2
  | .assigned => 3
  | .failed => 4

def strongest (e other : Event) : Event := if e.strength < other.strength then other else e

end Event

/-- The changes a propagator subscribes to; each level includes the levels before it. -/
inductive Wake
  /-- A single value is left. -/
  | value
  /-- A bound has moved. -/
  | bounds
  /-- Any value was lost. -/
  | domain
  deriving DecidableEq, Repr

/-- Whether an event wakes the subscribers of a level. -/
def Wake.triggeredBy : Wake → Event → Bool
  | .value, .assigned => true
  | .bounds, .assigned | .bounds, .bounds => true
  | .domain, .assigned | .domain, .bounds | .domain, .domain => true
  | _, _ => false

/-- An event that wakes the subscribers of some level has changed the domain. -/
theorem Wake.isModified_of_triggeredBy {w : Wake} {e : Event} (h : w.triggeredBy e) :
    e.isModified := by
  cases w <;> cases e <;> simp_all [triggeredBy, Event.isModified]

/-- The result of narrowing a domain. -/
inductive Narrowing (α : Type)
  | unchanged
  | empty
  | changed (domain : α)
  deriving DecidableEq, Repr

end ConstraintSearch
