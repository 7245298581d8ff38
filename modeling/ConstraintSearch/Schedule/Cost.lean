/-!
# Cost classes of propagators

A propagator is scheduled by the class of its expected running time, cheap classes first.
-/

namespace ConstraintSearch

inductive Cost
  | unary
  | binary
  | ternary
  | linearLow
  | linearHigh
  | quadraticLow
  | quadraticHigh
  | cubic
  | crazy
  deriving DecidableEq, Repr

namespace Cost

/-- The place of a class in the order of the queue. -/
def rank : Cost → Nat
  | .unary => 0
  | .binary => 1
  | .ternary => 2
  | .linearLow => 3
  | .linearHigh => 4
  | .quadraticLow => 5
  | .quadraticHigh => 6
  | .cubic => 7
  | .crazy => 8

def text : Cost → String
  | .unary => "Unary"
  | .binary => "Binary"
  | .ternary => "Ternary"
  | .linearLow => "LinearLo"
  | .linearHigh => "LinearHi"
  | .quadraticLow => "QuadraticLo"
  | .quadraticHigh => "QuadraticHi"
  | .cubic => "Cubic"
  | .crazy => "Crazy"

def all : List Cost :=
  [.unary, .binary, .ternary, .linearLow, .linearHigh, .quadraticLow, .quadraticHigh, .cubic,
    .crazy]

/-- The class with a given text. -/
def ofText? (s : String) : Option Cost := all.find? (·.text = s)

/-- The class of a running time that is linear in the number of variables `n`. -/
def linear (n : Nat) : Cost :=
  if n ≤ 1 then .unary
  else if n = 2 then .binary
  else if n = 3 then .ternary
  else if n ≤ 6 then .linearLow
  else .linearHigh

/-- The class of a running time that is quadratic in the number of variables `n`. -/
def quadratic (n : Nat) : Cost :=
  if n ≤ 1 then .unary
  else if n = 2 then .binary
  else if n = 3 then .ternary
  else if n ≤ 6 then .quadraticLow
  else .quadraticHigh

theorem rank_injective {a b : Cost} (h : a.rank = b.rank) : a = b := by
  cases a <;> cases b <;> simp_all [rank]

end Cost

end ConstraintSearch
