/-!
# Relations between a value and a bound

The four relations by which the domain of an integer variable is narrowed and in which the
alternatives of a branching and the literals of a no-good are expressed.
-/

namespace ConstraintSearch

/-- A comparison of a value with a constant. -/
inductive Relation
  | equal
  | notEqual
  | atMost
  | atLeast
  deriving DecidableEq, Repr

namespace Relation

/-- `r.Holds x v` says that `x` stands in the relation `r` to the constant `v`. -/
def Holds : Relation → Int → Int → Prop
  | .equal, x, v => x = v
  | .notEqual, x, v => x ≠ v
  | .atMost, x, v => x ≤ v
  | .atLeast, x, v => v ≤ x

instance : (r : Relation) → (x v : Int) → Decidable (r.Holds x v)
  | .equal, x, v => inferInstanceAs (Decidable (x = v))
  | .notEqual, x, v => inferInstanceAs (Decidable (x ≠ v))
  | .atMost, x, v => inferInstanceAs (Decidable (x ≤ v))
  | .atLeast, x, v => inferInstanceAs (Decidable (v ≤ x))

end Relation

end ConstraintSearch
