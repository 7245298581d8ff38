/-!
# Symmetries of a branching

A declared symmetry says that the variables at some positions of a brancher, or some values, can be
exchanged in every solution. After the branch `x = v` has been explored, the branches that follow
from it by an exchange need not be explored either.

* `Symmetry.update` takes a position or value that is decided out of the exchange;
* `Symmetry.images` are the equations that follow from an equation by one exchange.
-/

namespace ConstraintSearch

inductive Symmetry
  /-- The variables at the given positions can be exchanged. -/
  | positions (ps : List Nat)
  /-- The given values can be exchanged, in all variables at once. -/
  | values (vs : List Int)
  deriving DecidableEq, Repr

namespace Symmetry

/-- The symmetry that is left once the variable at `position` takes `v`. -/
def update (position : Nat) (v : Int) : Symmetry → Symmetry
  | positions ps => positions (ps.filter (· ≠ position))
  | values vs => values (vs.filter (· ≠ v))

/-- The equations, as positions and values, that an exchange makes of "the variable at `position`
takes `v`", other than that equation. -/
def images (position : Nat) (v : Int) : Symmetry → List (Nat × Int)
  | positions ps =>
      if ps.contains position then (ps.filter (· ≠ position)).map fun other => (other, v)
      else []
  | values vs =>
      if vs.contains v then (vs.filter (· ≠ v)).map fun other => (position, other) else []

/-- Whether the symmetry speaks of the positions below `count` only. -/
def within (count : Nat) : Symmetry → Bool
  | positions ps => ps.all (· < count)
  | values _ => true

end Symmetry

end ConstraintSearch
