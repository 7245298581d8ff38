import ConstraintSearch.Fault

/-!
# Arithmetic of bounded words

Domain values are integers of 32 bits. They are represented by `Int`, and each operation computes
the exact result and faults when that result does not fit. Division truncates towards zero;
`floorDiv` and `ceilDiv` round to the neighbour below and above.

Wide sums (64 bits, never exceeded here) are plain `Int` sums, brought back by `clamp`.
-/

namespace ConstraintSearch.Word

/-- The number of words of a width in bits. -/
def count (width : Nat) : Nat := Nat.pow 2 width

/-- The least 32-bit value. -/
def least : Int := -2147483648

/-- The greatest 32-bit value. -/
def greatest : Int := 2147483647

/-- `v` is a 32-bit value. -/
def Fits (v : Int) : Prop := least ≤ v ∧ v ≤ greatest

instance (v : Int) : Decidable (Fits v) := inferInstanceAs (Decidable (_ ∧ _))

/-- The exact result `v` of `operation`, if it fits. -/
def checked (operation : Operation) (v : Int) : Except Fault Int :=
  if Fits v then .ok v else .error (.overflow operation)

def add (a b : Int) : Except Fault Int := checked .add (a + b)

def sub (a b : Int) : Except Fault Int := checked .subtract (a - b)

def mul (a b : Int) : Except Fault Int := checked .multiply (a * b)

def neg (a : Int) : Except Fault Int := checked .negate (-a)

/-- The quotient truncated towards zero. -/
def quot (a b : Int) : Except Fault Int :=
  if b = 0 then .error .divisionByZero else checked .divide (a.tdiv b)

/-- The remainder of `quot`. It faults where the quotient does not fit. -/
def rem (a b : Int) : Except Fault Int :=
  if b = 0 then .error .remainderByZero
  else if Fits (a.tdiv b) then .ok (a.tmod b) else .error (.overflow .remainder)

/-- The quotient rounded down, where `quot` has a result. -/
def floorDiv (a b : Int) : Except Fault Int := do
  let _ ← quot a b
  return a.fdiv b

/-- The quotient rounded up, where `quot` has a result. -/
def ceilDiv (a b : Int) : Except Fault Int := do
  let _ ← quot a b
  return -((-a).fdiv b)

/-- The 32-bit value closest to `v`. -/
def clamp (v : Int) : Int := max least (min greatest v)

/-- The successor of a 32-bit value, if there is one. -/
def succ? (v : Int) : Option Int := if v < greatest then some (v + 1) else none

/-- The predecessor of a 32-bit value, if there is one. -/
def pred? (v : Int) : Option Int := if least < v then some (v - 1) else none

/-- The word without sign that has the last 32 bits of a number. Keys of variables and of
propagators and bounds of cardinalities are read as such words. The lengths of lists are not: lists
are taken to be shorter than `2 ^ 32`. -/
def unsigned (n : Nat) : Nat := n % count 32

/-- The 32-bit value with the same last 32 bits. -/
def wrap (v : Int) : Int := v.bmod (count 32)

theorem count_pos (width : Nat) : 0 < count width := Nat.two_pow_pos width

theorem checked_of_fits {operation : Operation} {v : Int} (h : Fits v) :
    checked operation v = .ok v := if_pos h

theorem checked_eq_ok {operation : Operation} {v w : Int} :
    checked operation v = .ok w ↔ Fits v ∧ v = w := by
  unfold checked
  split <;> simp_all

theorem fits_clamp (v : Int) : Fits (clamp v) := by
  unfold Fits clamp least greatest
  omega

theorem clamp_of_fits {v : Int} (h : Fits v) : clamp v = v := by
  unfold Fits least greatest at h
  unfold clamp least greatest
  omega

end ConstraintSearch.Word
