import ConstraintSearch.State

/-!
# Literals

Elementary statements about a variable: an integer variable stands in a relation to a value, or a
set includes or does not include an element. The alternatives of a branching are described by
literals, and no-goods are built from them.

* `Literal.truth?` evaluates a literal in a store, `none` while it is open;
* `Literal.exclude` makes a literal false.
-/

namespace ConstraintSearch

inductive Literal
  | comparison (x : IntVar) (relation : Relation) (value : Int)
  | membership (set : Nat) (value : Int) (included : Bool)
  deriving DecidableEq, Repr

namespace Literal

/-- The variable a literal speaks of. -/
def ref : Literal → VarRef
  | comparison x _ _ => x.ref
  | membership index _ _ => .set index

/-- The truth of an equation with `v`, given the bounds and whether `v` is still possible. -/
def equation? (contained : Bool) (lower upper : Int) : Option Bool :=
  if !contained then some false else if lower = upper then some true else none

/-- The truth of a literal, if it is decided. -/
def truth? (s : Store) : Literal → Except Fault (Option Bool)
  | comparison x relation v => do
      let lower ← x.lower s
      let upper ← x.upper s
      match relation with
      | .equal => return equation? (← x.contains s v) lower upper
      | .notEqual => return (equation? (← x.contains s v) lower upper).map not
      | .atMost => return if upper ≤ v then some true else if v < lower then some false else none
      | .atLeast => return if v ≤ lower then some true else if upper < v then some false else none
  | membership index v included => do
      let d ← s.set index
      return if d.isRequired v then some included
        else if !d.isPossible v then some (!included)
        else none

/-- Make a literal false. A bound beyond the last value leaves nothing. -/
def exclude : Literal → Propagation Unit
  | comparison x relation v => do
      match relation with
      | .equal => discard <| Propagation.remove x v
      | .notEqual => discard <| Propagation.assign x v
      | .atMost =>
          match Word.succ? v with
          | some bound => discard <| Propagation.setLower x bound
          | none => throw .emptyDomain
      | .atLeast =>
          match Word.pred? v with
          | some bound => discard <| Propagation.setUpper x bound
          | none => throw .emptyDomain
  | membership index v included => do
      if included then discard <| Propagation.excludeElement index v
      else discard <| Propagation.includeElement index v

end Literal

end ConstraintSearch
