import ConstraintSearch.Space

/-!
# Constraints

A constraint is a relation between variables; posting it adds the propagator that enforces it to a
space. Posting is refused in a failed space. Each function answers the number of the propagator and
the new space.
-/

namespace ConstraintSearch.Constraint

/-- `a ≠ b + offset` -/
def notEquals (s : Space) (a b : IntVar) (offset : Int) : Request (Nat × Space) :=
  s.post (.notEquals a b offset)

/-- `a + offset ≤ b` -/
def lessOrEqual (s : Space) (a b : IntVar) (offset : Int) : Request (Nat × Space) :=
  s.post (.lessOrEqual a b offset)

/-- `a < b` -/
def lessThan (s : Space) (a b : IntVar) : Request (Nat × Space) := lessOrEqual s a b 1

/-- The sum of the terms is at most `bound`. -/
def linearAtMost (s : Space) (terms : List IntVar) (bound : Int) : Request (Nat × Space) :=
  s.post (.linearAtMost terms bound)

/-- The sum of the terms is `total`. -/
def linearEqual (s : Space) (terms : List IntVar) (total : Int) : Request (Nat × Space) :=
  s.post (.linearEqual terms total)

/-- The terms `weight * variable`. Weights must be as many as variables, and not be zero. -/
def weighted (weights : List Int) (vars : List IntVar) : Request (List IntVar) :=
  if weights.length ≠ vars.length then
    Request.refuse (.sizeMismatch weights.length vars.length)
  else if weights.contains 0 then
    Request.refuse (.invalidOption "weights of a linear constraint must be non-zero")
  else (weights.zip vars).mapM fun (weight, x) => (x.scaled weight : Except Fault IntVar)

/-- The weighted sum of the variables is at most `bound`. -/
def weightedAtMost (s : Space) (weights : List Int) (vars : List IntVar) (bound : Int) :
    Request (Nat × Space) := do
  linearAtMost s (← weighted weights vars) bound

/-- The weighted sum of the variables is `total`. -/
def weightedEqual (s : Space) (weights : List Int) (vars : List IntVar) (total : Int) :
    Request (Nat × Space) := do
  linearEqual s (← weighted weights vars) total

/-- Whether a number of a sorted list stands next to itself. -/
def repeats : List Nat → Bool
  | a :: b :: ns => a = b || repeats (b :: ns)
  | _ => false

/-- Whether two of the variables are views of one store variable. -/
def hasDuplicates (vars : List IntVar) : Bool :=
  repeats ((vars.map IntVar.index).mergeSort (· ≤ ·))

/-- The variables take distinct values; they must not share a store variable. -/
def allDifferent (s : Space) (vars : List IntVar) : Request (Nat × Space) :=
  if hasDuplicates vars then Request.refuse .duplicateVariable
  else s.post (.distinct vars)

/-- One of the Boolean variables is true. -/
def clause (s : Space) (literals : List IntVar) : Request (Nat × Space) :=
  s.post (.clause literals)

/-- The set has `cardinality` elements. -/
def setCardinality (s : Space) (set : Nat) (cardinality : IntVar) : Request (Nat × Space) :=
  s.post (.setCardinality set cardinality)

/-- `a ≤ b` for float variables. -/
def floatAtMost (s : Space) (a b : Nat) : Request (Nat × Space) := s.post (.floatAtMost a b)

end ConstraintSearch.Constraint
