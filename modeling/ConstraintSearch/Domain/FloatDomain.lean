import ConstraintSearch.Decimal.Shortest
import ConstraintSearch.Domain.Event

/-!
# Float domains

A closed interval of floating-point numbers. Comparisons are those of floating point: no
comparison with a value that is not a number holds.
-/

namespace ConstraintSearch

/-- The numbers from `lower` to `upper`. -/
structure FloatDomain where
  lower : Float
  upper : Float
  deriving Repr

namespace FloatDomain

def of? (lower upper : Float) : Option FloatDomain :=
  if lower ≤ upper then some ⟨lower, upper⟩ else none

def width (d : FloatDomain) : Float := d.upper - d.lower

/-- The number halfway between the bounds. -/
def median (d : FloatDomain) : Float := d.lower + d.width / 2.0

def isAssigned (d : FloatDomain) : Bool := d.lower == d.upper

/-- What was lost on the way from `d` to the smaller domain `narrowed`. -/
def eventTowards (d narrowed : FloatDomain) : Event :=
  if narrowed.lower == d.lower && narrowed.upper == d.upper then .none
  else if narrowed.isAssigned then .assigned
  else .bounds

/-- Keep the numbers that are at most `v`. -/
def withUpper (d : FloatDomain) (v : Float) : Narrowing FloatDomain :=
  if v ≥ d.upper then .unchanged
  else if v < d.lower then .empty
  else .changed { d with upper := v }

/-- Keep the numbers that are at least `v`. -/
def withLower (d : FloatDomain) (v : Float) : Narrowing FloatDomain :=
  if v ≤ d.lower then .unchanged
  else if v > d.upper then .empty
  else .changed { d with lower := v }

def text (d : FloatDomain) : String :=
  "[" ++ Decimal.text d.lower ++ ", " ++ Decimal.text d.upper ++ "]"

end FloatDomain

end ConstraintSearch
