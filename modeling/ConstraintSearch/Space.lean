import ConstraintSearch.Propagator.Execution
import ConstraintSearch.Branching.Brancher

/-!
# Spaces

A space is a node of a search tree: variables with their domains, the propagators posted on them,
the branchers that split them, and possibly an objective. Spaces are values, so that a search keeps
copies of them where it likes.

* `Space.newInt`, `Space.newSet`, … create variables, `Space.post` posts a propagator,
  `Space.branch` adds a brancher;
* `Space.restrict` and its relatives narrow variables;
* `Space.propagate` runs the scheduled propagators until none is left, and `Space.status` says
  whether the space has failed, is solved, or has to be split;
* `Space.choice` and `Space.commit` split it;
* `Space.constrain` asks for a solution better than a given one.
-/

namespace ConstraintSearch

/-- An integer variable that is to be small or large. -/
inductive Objective
  | minimise (x : IntVar)
  | maximise (x : IntVar)
  deriving DecidableEq, Repr

def Objective.variable : Objective → IntVar
  | minimise x | maximise x => x

inductive SpaceStatus
  | branch
  | solved
  | failed
  deriving DecidableEq, Repr

def SpaceStatus.text : SpaceStatus → String
  | .branch => "Branch"
  | .solved => "Solved"
  | .failed => "Failed"

structure Space where
  state : State
  /-- The posted propagators; the slot of a propagator that is no longer needed is empty. -/
  propagators : Table (Option Propagator)
  branchers : Table Brancher
  /-- The branchers before this position have nothing left to decide. -/
  active : Nat
  objective : Option Objective
  /-- The number of propagator runs so far. -/
  propagations : Nat

namespace Space

/-- The empty space. -/
def ofPolicy (policy : Policy) : Space := ⟨State.ofPolicy policy, ∅, ∅, 0, none, 0⟩

instance : Inhabited Space := ⟨ofPolicy default⟩

def store (s : Space) : Store := s.state.store

def isFailed (s : Space) : Bool := s.state.failed

/-- Mark the space as failed. -/
def fail (s : Space) : Space := { s with state := s.state.fail }

/-! ### Variables -/

def addInt (s : Space) (d : IntDomain) : Nat × Space :=
  let store := s.state.store
  (store.ints.size,
    { s with state := { s.state with store := { store with ints := store.ints.push d } } })

/-- A new integer variable with the domain `{lower, …, upper}`. -/
def newInt (s : Space) (lower upper : Int) : Request (Nat × Space) :=
  match IntDomain.ofInterval? lower upper with
  | some d => return s.addInt d
  | none => Request.refuse (.emptyDomain lower upper)

/-- Several new integer variables with one domain. -/
def newInts (s : Space) (count : Nat) (lower upper : Int) : Request (List Nat × Space) :=
  match count with
  | 0 => return ([], s)
  | count + 1 => do
      let (x, s) ← s.newInt lower upper
      let (xs, s) ← s.newInts count lower upper
      return (x :: xs, s)

/-- A new integer variable with the given values. -/
def newIntOfValues (s : Space) (values : List Int) : Request (Nat × Space) :=
  match IntDomain.ofValues? values with
  | some d => return s.addInt d
  | none => Request.refuse (.emptyDomain 1 0)

/-- A new Boolean variable. -/
def newBool (s : Space) : IntVar × Space :=
  let (x, s) := s.addInt ⟨[⟨0, 1⟩], by simp⟩
  (IntVar.ofTruth x, s)

/-- A new set variable with the sets between `required` and `possible` that have from `cardMin` to
`cardMax` elements. -/
def newSet (s : Space) (required possible : List Int) (cardMin cardMax : Nat) :
    Request (Nat × Space) :=
  match SetDomain.of? required possible cardMin cardMax with
  | some d =>
      let store := s.state.store
      return (store.sets.size,
        { s with state := { s.state with store := { store with sets := store.sets.push d } } })
  | none => Request.refuse (.emptyDomain cardMin cardMax)

/-- A new float variable with the numbers from `lower` to `upper`. A refusal names the interval of
integers around them, saturated at 64 bits. -/
def newFloat (s : Space) (lower upper : Float) : Request (Nat × Space) :=
  match FloatDomain.of? lower upper with
  | some d =>
      let store := s.state.store
      return (store.floats.size,
        { s with state := { s.state with store := { store with floats := store.floats.push d } } })
  | none =>
      Request.refuse (.emptyDomain lower.floor.toInt64.toInt upper.ceil.toInt64.toInt)

/-! ### Propagators -/

/-- Put a propagator into its slot, and schedule its first run. -/
def install (s : Space) (number : Nat) (p : Propagator) : Space :=
  { s with
    state := (s.state.classify number p.cost).schedule number
    propagators := s.propagators.set number (some p) }

/-- Post a propagator. Its number is the position of its slot. -/
def post (s : Space) (p : Propagator) : Request (Nat × Space) := do
  if s.isFailed then Request.refuse .infeasibleState
  else
    let number := s.propagators.size
    let subscriptions ← p.subscriptions
    let s := { s with
      propagators := s.propagators.push none
      state := s.state.subscribe number subscriptions }
    return (number, s.install number p)

/-- The propagator with a given number, if it is still needed. -/
def propagator? (s : Space) (number : Nat) : Option Propagator :=
  (s.propagators.get? number).join

/-- The number of propagators that are still needed. -/
def propagatorCount (s : Space) : Nat := s.propagators.rows.countP (·.isSome)

/-! ### Narrowing -/

/-- Keep the values of `x` that stand in the relation to `v`. -/
def restrict (s : Space) (x : IntVar) (relation : Relation) (v : Int) :
    Except Fault (Event × Space) := do
  let (event, state) ← s.state.restrict x relation v
  return (event, { s with state })

/-- Keep the values of `x` below `v`. -/
def restrictBelow (s : Space) (x : IntVar) (v : Int) : Except Fault (Event × Space) :=
  match Word.pred? v with
  | some bound => s.restrict x .atMost bound
  | none => return (.failed, s.fail)

/-- Keep the values of `x` above `v`. -/
def restrictAbove (s : Space) (x : IntVar) (v : Int) : Except Fault (Event × Space) :=
  match Word.succ? v with
  | some bound => s.restrict x .atLeast bound
  | none => return (.failed, s.fail)

/-- Keep the given values of `x`. -/
def restrictTo (s : Space) (x : IntVar) (values : List Int) : Except Fault (Event × Space) := do
  let (outcome, state) ← (Propagation.restrictTo x values).run s.state
  match outcome with
  | .ok event => return (event, { s with state })
  | .error _ => return (.failed, { s with state })

def narrowSet (s : Space) (index : Nat) (narrowing : SetDomain → Narrowing SetDomain) :
    Except Fault (Event × Space) := do
  let (event, state) ← s.state.narrowSet index narrowing
  return (event, { s with state })

def narrowFloat (s : Space) (index : Nat) (narrowing : FloatDomain → Narrowing FloatDomain) :
    Except Fault (Event × Space) := do
  let (event, state) ← s.state.narrowFloat index narrowing
  return (event, { s with state })

/-! ### Propagation -/

/-- Take a propagator out of the space. -/
def retire (s : Space) (number : Nat) (p : Propagator) : Journaled Space := do
  p.retire
  let state := s.state
  return { s with
    propagators := s.propagators.set number none
    state := { state with
      watches := state.watches.unsubscribeAll number
      queue := state.queue.remove number } }

/-- Act on the verdict of a propagator that has run. At a fixpoint, a run that the propagator has
caused itself is cancelled. -/
def settle (s : Space) (number : Nat) (p : Propagator) (verdict : Verdict Propagator) :
    Journaled Space := do
  match verdict with
  | .fix =>
      return { s with
        propagators := s.propagators.set number (some p)
        state := { s.state with queue := s.state.queue.remove number } }
  | .noFix => return { s with propagators := s.propagators.set number (some p) }
  | .subsumed => s.retire number p
  | .replace successor =>
      let s ← s.retire number p
      let subscriptions ← successor.subscriptions
      let s := { s with state := s.state.subscribe number subscriptions }
      Journaled.note (.replaced p.name successor.name)
      return s.install number successor

/-- Run the propagator with a given number, if it is still needed. Returns whether the space may
still have solutions. -/
def execute (s : Space) (number : Nat) : Journaled (Bool × Space) := do
  match s.propagator? number with
  | none => return (true, s)
  | some p =>
      let (outcome, state) ← p.execute s.state
      let s := { s with state, propagations := s.propagations + 1 }
      match outcome with
      | .ok (p, verdict) => return (true, ← s.settle number p verdict)
      | .error _ =>
          Journaled.note (.failedBy p.name)
          return (false, s.fail)

/-- The propagator that is executed next, which is then no longer scheduled. -/
def pop (s : Space) : Option Nat × Space :=
  let (propagator, state) := s.state.pop
  (propagator, { s with state })

/-- Run the scheduled propagators until none is left or the space has failed, at most `steps` of
them. -/
def propagateWithin : Nat → Space → Journaled Space
  | 0, _ => throwThe Fault .unfinished
  | steps + 1, s =>
      match s.pop with
      | (none, s) => return s
      | (some number, s) => do
          let (consistent, s) ← s.execute number
          if consistent then propagateWithin steps s else return s

/-- A number of propagator runs within which no run is left. Each run changes a domain, replaces
its propagator, or makes the queue shorter; the queue is never longer than the table of
propagators. -/
def propagationBound (s : Space) : Nat :=
  let replacements := total (fun slot => (slot.map (·.replacements)).getD 0) s.propagators.toList
  (s.store.weight + replacements + 1) * (s.propagators.size + 1) + 1

/-- Run the scheduled propagators until none is left or the space has failed. -/
def propagate (s : Space) : Journaled Space :=
  if s.isFailed then return s else propagateWithin s.propagationBound s

/-- Pass over the branchers that have nothing left to decide. Returns whether a brancher has. -/
def advance (store : Store) : List (Brancher × Nat) → Table Brancher → Nat →
    Except Fault (Bool × Table Brancher × Nat)
  | [], branchers, active => return (false, branchers, active)
  | (b, position) :: rest, branchers, active => do
      let (isOpen, b) ← b.status store
      let branchers := branchers.set position b
      if isOpen then return (true, branchers, active)
      else advance store rest branchers (active + 1)

/-- Propagate, and say what is left to do. -/
def status (s : Space) : Journaled (SpaceStatus × Space) := do
  let s ← s.propagate
  if s.isFailed then return (.failed, s)
  let candidates := s.branchers.toList.zipIdx.drop s.active
  let (isOpen, branchers, active) ← advance s.store candidates s.branchers s.active
  let s := { s with branchers, active }
  return (if isOpen then .branch else .solved, s)

/-! ### Branching -/

/-- Add a brancher behind the others. Its number is its position. -/
def branch (s : Space) (b : Brancher) : Nat × Space :=
  (s.branchers.size, { s with branchers := s.branchers.push b })

/-- The choice at a node whose status is `SpaceStatus.branch`. -/
def choice (s : Space) : Except Fault (Choice × Space) := do
  if s.isFailed ∨ s.branchers.size ≤ s.active then throw .noChoice
  let b ← s.branchers.fetch s.active
  let (decision, b) ← b.decide s.state
  let choice : Choice := ⟨s.active, decision⟩
  if choice.alternatives < 2 then throw .brokenCondition
  return (choice, { s with branchers := s.branchers.set s.active b })

/-- Narrow the space to an alternative of a choice. -/
def commit (s : Space) (choice : Choice) (alternative : Nat) : Except Fault Space := do
  if choice.alternatives ≤ alternative then throw .brokenCondition
  if s.isFailed then return s
  let b ← s.branchers.fetch choice.brancher
  let (outcome, state) ← (b.commit choice.decision alternative).run s.state
  match outcome with
  | .ok b => return { s with state, branchers := s.branchers.set choice.brancher b }
  | .error _ => return { s with state }.fail

/-- Descend from a node along a path of alternatives, through `depth` nodes at most. Behind the end
of the path the first alternative is taken, and a number beyond the last alternative means that one.
Returns the descriptions of the alternatives from the node down, and then the status of the leaf if
one is reached. -/
def descend : Nat → List Nat → Space → Journaled (List String × Space)
  | 0, _, s => return ([], s)
  | depth + 1, path, s => do
      let (status, s) ← s.status
      match status with
      | .branch =>
          let (choice, s) ← s.choice
          let alternative := min (path.headD 0) (choice.alternatives - 1)
          let description ← choice.describe alternative
          let (below, s) ← descend depth path.tail (← s.commit choice alternative)
          return (description :: below, s)
      | status => return ([status.text], s)

/-! ### Objectives -/

/-- The value of the objective, once its variable is fixed. -/
def objectiveValue (s : Space) : Except Fault (Option Int) :=
  match s.objective with
  | some objective => objective.variable.value? s.store
  | none => return none

/-- Ask for a better value of the objective than in `best`. -/
def constrain (s best : Space) : Except Fault Space := do
  match s.objective with
  | none => return s
  | some (.minimise x) =>
      let bound ← Word.sub (← x.upper best.store) 1
      return (← s.restrict x .atMost bound).2
  | some (.maximise x) =>
      let bound ← Word.add (← x.lower best.store) 1
      return (← s.restrict x .atLeast bound).2

end Space

/-! ### Memory -/

/-- How much memory a copy of a space needs. Nothing depends on the measure but the statistics. -/
class MemoryMeasure where
  memory : Space → Nat

/-- The domains and the posted parts of a space are counted, so that every space needs some. -/
instance : MemoryMeasure where
  memory s := 1 + s.store.ints.size + s.store.sets.size + s.store.floats.size + s.propagators.size
    + s.branchers.size

def Space.memory [MemoryMeasure] (s : Space) : Nat := MemoryMeasure.memory s

end ConstraintSearch
