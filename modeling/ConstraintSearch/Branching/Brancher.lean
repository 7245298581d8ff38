import ConstraintSearch.Branching.Selection
import ConstraintSearch.Branching.Symmetry
import ConstraintSearch.Journal

/-!
# Branchers

A brancher splits the nodes of the search tree on its variables, until all of them are decided.

* `Brancher.status` says whether a variable is left to decide, and remembers how many variables
  from the front on are decided;
* `Brancher.decide` makes the next decision;
* `Brancher.commit` narrows the variables of a state to an alternative of a decision.
-/

namespace ConstraintSearch

structure IntBrancher where
  vars : Table IntVar
  /-- The variables before this position are fixed. -/
  start : Nat
  select : VariableSelection
  value : ValueSelection
  symmetries : List Symmetry

inductive Brancher
  | int (brancher : IntBrancher)
  /-- Decides the elements of sets one by one. -/
  | set (vars : Table Nat) (start : Nat)
  /-- Halves intervals until they are no wider than the precision. -/
  | float (vars : Table Nat) (precision : Float) (start : Nat)

/-- The number of elements at the front of a list that are decided. -/
def countDecided {α : Type} (decided : α → Except Fault Bool) : List α → Except Fault Nat
  | [] => return 0
  | x :: xs => do if ← decided x then return (← countDecided decided xs) + 1 else return 0

namespace IntBrancher

/-- A brancher with a selection of variables and values. -/
def ofVariables (vars : List IntVar) (select : VariableSelection) (value : ValueSelection) :
    IntBrancher :=
  ⟨⟨vars.toArray⟩, 0, select, value, []⟩

/-- Report a brancher that has nothing to decide. -/
def announced (b : IntBrancher) : Journaled IntBrancher := do
  if b.vars.size = 0 then Journaled.note .noVariables
  return b

/-- The brancher with declared symmetries, which name positions of its variables. -/
def withSymmetries (b : IntBrancher) (symmetries : List Symmetry) : Except Fault IntBrancher :=
  let symmetries := b.symmetries ++ symmetries
  if symmetries.all (·.within b.vars.size) then .ok { b with symmetries }
  else .error .brokenCondition

def decide (s : State) (b : IntBrancher) : Except Fault (Decision × IntBrancher) := do
  let (position, select) ← b.select.select s b.vars b.start
  let x ← b.vars.fetch position
  if ← x.isFixed s.store then throw .brokenCondition
  let (split, value) ← b.value.select s.store x
  return (.int position x split (!b.symmetries.isEmpty), { b with select, value })

/-- Commit `x = v`, or exclude it with the equations that follow by symmetry. -/
def commitEqual (b : IntBrancher) (position : Nat) (x : IntVar) (v : Int) (alternative : Nat) :
    Propagation IntBrancher := do
  if alternative = 0 then
    let _ ← Propagation.assign x v
    return { b with symmetries := b.symmetries.map (·.update position v) }
  else
    let _ ← Propagation.remove x v
    (b.symmetries.flatMap (·.images position v)).forM fun (other, w) => do
      let y ← b.vars.fetch other
      discard <| Propagation.remove y w
    return b

def commit (b : IntBrancher) (position : Nat) (x : IntVar) (split : Split) (alternative : Nat) :
    Propagation IntBrancher := do
  match split with
  | .equal v => b.commitEqual position x v alternative
  | .atMost v =>
      if alternative = 0 then discard <| Propagation.setUpper x v
      else discard <| Propagation.setLower x (← Word.add v 1)
      return b
  | .atLeast v =>
      if alternative = 0 then discard <| Propagation.setLower x v
      else discard <| Propagation.setUpper x (← Word.sub v 1)
      return b
  | .values vs =>
      let _ ← Propagation.assign x (← (Table.mk vs.toArray).fetch alternative)
      return b

end IntBrancher

namespace Brancher

/-- A brancher of float variables; it halves for ever unless the precision is positive. -/
def ofFloats (vars : List Nat) (precision : Float) : Except Fault Brancher :=
  if precision > 0.0 then .ok (.float ⟨vars.toArray⟩ precision 0)
  else .error .nonPositivePrecision

def ofSets (vars : List Nat) : Brancher := .set ⟨vars.toArray⟩ 0

/-- Whether a variable is left to decide, and the brancher that has passed over the decided
variables at its front. -/
def status (s : Store) : Brancher → Except Fault (Bool × Brancher)
  | int b => do
      let decided ← countDecided (·.isFixed s) (b.vars.toList.drop b.start)
      let start := b.start + decided
      return (start < b.vars.size, int { b with start })
  | set vars start => do
      let decided ← countDecided (fun x => return (← s.set x).isAssigned)
        (vars.toList.drop start)
      return (start + decided < vars.size, set vars (start + decided))
  | float vars precision start => do
      let decided ← countDecided (fun x => return (← s.float x).width ≤ precision)
        (vars.toList.drop start)
      return (start + decided < vars.size, float vars precision (start + decided))

/-- The next decision. -/
def decide (s : State) : Brancher → Except Fault (Decision × Brancher)
  | int b => do
      let (decision, b) ← b.decide s
      return (decision, int b)
  | set vars start => do
      let x ← vars.fetch start
      match (← s.store.set x).leastUnknown? with
      | some v => return (.set x v, set vars start)
      | none => throw .nothingUndecided
  | float vars precision start => do
      let x ← vars.fetch start
      return (.float x (← s.store.float x).median, float vars precision start)

/-- Narrow the variables of a state to an alternative of a decision. A decision of another kind of
brancher leaves nothing. -/
def commit (b : Brancher) (decision : Decision) (alternative : Nat) : Propagation Brancher := do
  match b, decision with
  | int b, .int position x split _ => return int (← b.commit position x split alternative)
  | set _ _, .set x v => do
      if alternative = 0 then discard <| Propagation.includeElement x v
      else discard <| Propagation.excludeElement x v
      return b
  | float _ _ _, .float x v => do
      if alternative = 0 then discard <| Propagation.setFloatUpper x v
      else discard <| Propagation.setFloatLower x v
      return b
  | _, _ => throw .emptyDomain

end Brancher

end ConstraintSearch
