import ConstraintSearch.Propagator.Literal
import ConstraintSearch.Propagator.Script

/-!
# Propagators

A propagator enforces a constraint: it removes values that take part in no solution of the
constraint. This module says what the propagators are and which changes wake them; how each of them
runs is said in the modules beside it.

* `Propagator.name`, `Propagator.cost`;
* `Propagator.subscriptions`: the changes that wake it;
* `Verdict`: what a run says about the runs to come.
-/

namespace ConstraintSearch

/-- A node on the path of a search whose branches are cut off: what was explored there, and the
branch on which the next level lies. -/
structure NoGoodLevel where
  explored : List Literal
  taken : Option Literal
  deriving DecidableEq, Repr

inductive Propagator
  /-- `a ≠ b + offset` -/
  | notEquals (a b : IntVar) (offset : Int)
  /-- `a + offset ≤ b` -/
  | lessOrEqual (a b : IntVar) (offset : Int)
  /-- The sum of the terms is at most `bound`. -/
  | linearAtMost (terms : List IntVar) (bound : Int)
  /-- The sum of the terms is `total`. -/
  | linearEqual (terms : List IntVar) (total : Int)
  /-- The variables take distinct values; a variable is marked once its value has been removed
  from the others. -/
  | allDifferent (vars : List (IntVar × Bool))
  /-- One of the Boolean variables is true. -/
  | clause (literals : List IntVar)
  /-- The set has `cardinality` elements. -/
  | setCardinality (set : Nat) (cardinality : IntVar)
  /-- `a ≤ b` for float variables. -/
  | floatAtMost (a b : Nat)
  /-- At each level down to the first one whose taken branch is not taken, no explored branch is
  taken. The levels before `start` are settled. -/
  | noGoods (levels : List NoGoodLevel) (start : Nat)
  /-- A scripted propagator and the number of its runs so far. -/
  | scripted (script : Script) (executions : Nat)

/-- What a run of a propagator says about the runs to come. -/
inductive Verdict (α : Type)
  /-- Running again at once would change nothing. -/
  | fix
  /-- Nothing is known. -/
  | noFix
  /-- The constraint holds whatever values are taken from now on. -/
  | subsumed
  /-- From now on, `successor` enforces the constraint. -/
  | replace (successor : α)

namespace Propagator

/-- The constraint that all variables take distinct values. -/
def distinct (vars : List IntVar) : Propagator :=
  allDifferent (vars.map fun x => (x, false))

def name : Propagator → String
  | notEquals _ _ _ => "BinaryNotEquals"
  | lessOrEqual _ _ _ => "BinaryLessOrEqual"
  | linearAtMost _ _ => "LinearLeq"
  | linearEqual _ _ => "LinearEq"
  | allDifferent _ => "AllDifferent"
  | clause _ => "Clause"
  | setCardinality _ _ => "SetCardinality"
  | floatAtMost _ _ => "FloatLessOrEqual"
  | noGoods _ _ => "NoGoods"
  | scripted script _ => script.name

def cost : Propagator → Cost
  | notEquals _ _ _ | lessOrEqual _ _ _ | setCardinality _ _ | floatAtMost _ _ => .binary
  | linearAtMost terms _ | linearEqual terms _ => Cost.linear terms.length
  | allDifferent vars => Cost.linear vars.length
  | clause literals => Cost.linear literals.length
  | noGoods levels _ => Cost.linear levels.length
  | scripted script _ => script.cost

/-- The changes after which a propagator other than a scripted one has to run again. -/
def interests : Propagator → List (VarRef × Wake)
  | notEquals a b _ => [(a.ref, .value), (b.ref, .value)]
  | lessOrEqual a b _ => [(a.ref, .bounds), (b.ref, .bounds)]
  | linearAtMost terms _ | linearEqual terms _ => terms.map fun x => (x.ref, .bounds)
  | allDifferent vars => vars.map fun x => (x.1.ref, .value)
  | clause literals => literals.map fun x => (x.ref, .value)
  | setCardinality set cardinality => [(.set set, .domain), (cardinality.ref, .bounds)]
  | floatAtMost a b => [(.float a, .bounds), (.float b, .bounds)]
  | noGoods levels _ => (levels.filterMap (·.taken)).map fun literal => (literal.ref, .domain)
  | scripted _ _ => []

/-- The changes after which the propagator has to run again, in the order in which it registers
them. A scripted propagator may mention a view that cannot be built. -/
def subscriptions : Propagator → Except Fault (List (VarRef × Wake))
  | scripted script _ => script.watch.mapM fun (x, wake) => return (← x, wake)
  | p => return p.interests

/-- The number of times the propagator can still be replaced by another one. -/
def replacements : Propagator → Nat
  | allDifferent _ => 1
  | scripted script _ => script.height
  | _ => 0

end Propagator

end ConstraintSearch
