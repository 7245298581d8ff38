import ConstraintSearch.Propagator.Literal

/-!
# Choices

A choice splits a node of the search tree into alternatives, numbered from zero. It names the
brancher that made it and the decision that is to be taken.

* `Choice.alternatives` is the number of alternatives;
* `Choice.describe` is the text of an alternative;
* `Choice.literal?` is the literal that holds exactly in an alternative, if there is one.

The number of alternatives is exact, where 32 bits would wrap around for a list of all `2 ^ 32`
values and for no other list of the values of a domain; that list is left out.
-/

namespace ConstraintSearch

/-- How the values of an integer variable are split. -/
inductive Split
  /-- `x = v`, `x ≠ v` -/
  | equal (v : Int)
  /-- `x ≤ v`, `x > v` -/
  | atMost (v : Int)
  /-- `x ≥ v`, `x < v` -/
  | atLeast (v : Int)
  /-- `x = v` for each of the values -/
  | values (vs : List Int)
  deriving DecidableEq, Repr

/-- What is to be decided at a node. -/
inductive Decision
  /-- Split the variable at a position of the brancher. If the brancher breaks symmetries, an
  alternative excludes more than its literal says. -/
  | int (position : Nat) (x : IntVar) (split : Split) (breaksSymmetries : Bool)
  /-- Does the set include the value? -/
  | set (index : Nat) (v : Int)
  /-- Is the number at most or at least `v`? -/
  | float (index : Nat) (v : Float)

structure Choice where
  brancher : Nat
  decision : Decision

namespace Split

/-- The number of alternatives. There are less than `2 ^ 32` values. -/
def alternatives : Split → Nat
  | values vs => vs.length
  | _ => 2

/-- The text of an alternative for the variable with a given text. -/
def describe (x : String) : Split → Nat → Except Fault String
  | equal v, 0 => return x ++ " = " ++ toString v
  | equal v, _ => return x ++ " != " ++ toString v
  | atMost v, 0 => return x ++ " <= " ++ toString v
  | atMost v, _ => return x ++ " > " ++ toString v
  | atLeast v, 0 => return x ++ " >= " ++ toString v
  | atLeast v, _ => return x ++ " < " ++ toString v
  | values vs, alternative => do
      return x ++ " = " ++ toString (← (Table.mk vs.toArray).fetch alternative)

/-- The literal on `x` that holds exactly in an alternative. A bound beyond the last value cannot
be written down. -/
def literal? (x : IntVar) : Split → Nat → Option Literal
  | equal v, 0 => some (.comparison x .equal v)
  | equal v, _ => some (.comparison x .notEqual v)
  | atMost v, 0 => some (.comparison x .atMost v)
  | atMost v, _ => (Word.succ? v).map fun w => .comparison x .atLeast w
  | atLeast v, 0 => some (.comparison x .atLeast v)
  | atLeast v, _ => (Word.pred? v).map fun w => .comparison x .atMost w
  | values vs, alternative => vs[alternative]?.map fun v => .comparison x .equal v

end Split

namespace Choice

def alternatives (c : Choice) : Nat :=
  match c.decision with
  | .int _ _ split _ => split.alternatives
  | .set _ _ | .float _ _ => 2

/-- The text of an alternative. -/
def describe (c : Choice) (alternative : Nat) : Except Fault String :=
  match c.decision with
  | .int _ x split _ => do split.describe (← x.text) alternative
  | .set index v =>
      return toString v ++ (if alternative = 0 then " in " else " not in ")
        ++ (VarRef.set index).text
  | .float index v =>
      return (VarRef.float index).text ++ (if alternative = 0 then " <= " else " >= ")
        ++ Decimal.text v

/-- The literal that holds exactly in an alternative, if there is one. -/
def literal? (c : Choice) (alternative : Nat) : Option Literal :=
  match c.decision with
  | .int _ x split breaksSymmetries =>
      if breaksSymmetries then none else split.literal? x alternative
  | .set index v => some (.membership index v (alternative = 0))
  | .float _ _ => none

end Choice

end ConstraintSearch
