import ConstraintSearch.Store
import ConstraintSearch.Word

/-!
# Integer variables and views

An integer variable of a model is a variable of the store or a view of one. The view
`scale * x + offset` has no domain of its own: reading it maps the domain of `x`, and narrowing it
narrows `x` to the values whose image is kept. A Boolean variable is a view of a store variable
with the domain `{0, 1}`.

* `IntVar.scaled`, `IntVar.plus` and `IntVar.negated` build views;
* `IntVar.bound`, `contains`, `size`, `values`, … read the domain through the view;
* `IntVar.pull` carries a restriction of the view back to a restriction of the store variable;
* `IntVar.restrict` narrows the store variable by the pulled restriction.

All arithmetic is 32-bit arithmetic and faults on overflow.
-/

namespace ConstraintSearch

inductive IntVar
  /-- A variable of the store. -/
  | root (index : Nat)
  /-- The view `scale * inner + offset`. -/
  | affine (inner : IntVar) (scale offset : Int)
  /-- A Boolean variable, given by the view that computes its truth value. -/
  | bool (inner : IntVar)
  deriving DecidableEq, Repr

/-- The two bounds of a domain. -/
inductive Side
  | lower
  | upper
  deriving DecidableEq, Repr

def Side.flip : Side → Side
  | .lower => .upper
  | .upper => .lower

/-- A restriction carried back to the store. -/
inductive Pulled
  /-- The restriction of a store variable. -/
  | root (index : Nat) (relation : Relation) (value : Int)
  /-- No value satisfies the restriction. -/
  | never
  /-- Every value satisfies the restriction. -/
  | always
  deriving DecidableEq, Repr

namespace IntVar

/-- The store variable behind a variable. -/
def index : IntVar → Nat
  | root index => index
  | affine inner _ _ => inner.index
  | bool inner => inner.index

def ref (x : IntVar) : VarRef := .int x.index

/-- The view `scale * inner + offset`; a view by zero could not be narrowed. -/
def view (inner : IntVar) (scale offset : Int) : Except Fault IntVar :=
  if scale = 0 then .error .zeroScale else .ok (affine inner scale offset)

/-- The variable times a constant. A view of a view is folded into one. -/
def scaled (x : IntVar) (k : Int) : Except Fault IntVar :=
  match x with
  | affine inner scale offset => do
      let scale ← Word.mul scale k
      let offset ← Word.mul offset k
      return affine inner scale offset
  | x => view x k 0

/-- The variable plus a constant. -/
def plus (x : IntVar) (k : Int) : Except Fault IntVar :=
  match x with
  | affine inner scale offset => do
      let offset ← Word.add offset k
      return affine inner scale offset
  | x => view x 1 k

/-- The Boolean variable that is true where the store variable is one. -/
def ofTruth (index : Nat) : IntVar := bool (affine (root index) 1 0)

/-- The opposite of a Boolean variable, `1 - x`. -/
def negated : IntVar → Except Fault IntVar
  | bool inner => do
      let opposite ← inner.scaled (-1)
      return bool (← opposite.plus 1)
  | x => do
      let opposite ← x.scaled (-1)
      opposite.plus 1

/-- The text of a view around the text of what it views. -/
def viewText (inner : String) (scale offset : Int) : Except Fault String := do
  let factor := if scale = -1 then "-" else if scale = 1 then "" else toString scale ++ " * "
  let term := factor ++ "(" ++ inner ++ ")"
  if offset < 0 then
    let distance ← Word.neg offset
    return term ++ " - " ++ toString distance
  else if offset = 0 then return term
  else return term ++ " + " ++ toString offset

def text : IntVar → Except Fault String
  | root index => return (VarRef.int index).text
  | affine inner scale offset => do viewText (← inner.text) scale offset
  | bool inner => do
      return "BoolVar \x7b integer_variable: " ++ (← inner.text) ++ " \x7d"

/-- The image `scale * v + offset`. -/
def image (scale offset v : Int) : Except Fault Int := do
  let product ← Word.mul scale v
  Word.add product offset

/-- The value whose image is `v`, if there is one. -/
def preimage (scale offset v : Int) : Except Fault (Option Int) := do
  let difference ← Word.sub v offset
  let remainder ← Word.rem difference scale
  if remainder = 0 then
    return some (← Word.quot difference scale)
  else return none

/-- A bound of the domain. A negative scale exchanges the bounds. -/
def bound (s : Store) : IntVar → Side → Except Fault Int
  | root index, .lower => do return (← s.int index).min
  | root index, .upper => do return (← s.int index).max
  | affine inner scale offset, side => do
      let v ← inner.bound s (if scale < 0 then side.flip else side)
      image scale offset v
  | bool inner, side => inner.bound s side

def lower (x : IntVar) (s : Store) : Except Fault Int := x.bound s .lower

def upper (x : IntVar) (s : Store) : Except Fault Int := x.bound s .upper

/-- The number of values. -/
def size (x : IntVar) (s : Store) : Except Fault Nat := do return (← s.int x.index).size

def contains (s : Store) : IntVar → Int → Except Fault Bool
  | root index, v => do return (← s.int index).contains v
  | affine inner scale offset, v => do
      match ← preimage scale offset v with
      | some w => inner.contains s w
      | none => return false
  | bool inner, v => inner.contains s v

/-- Whether a single value is left. -/
def isFixed (x : IntVar) (s : Store) : Except Fault Bool := do
  let lower ← x.lower s
  let upper ← x.upper s
  return lower = upper

/-- The value of a fixed variable. -/
def value? (x : IntVar) (s : Store) : Except Fault (Option Int) := do
  let lower ← x.lower s
  let upper ← x.upper s
  return if lower = upper then some lower else none

/-- The image of a value of the store variable. -/
def imageOf : IntVar → Int → Except Fault Int
  | root _, v => return v
  | affine inner scale offset, v => do image scale offset (← inner.imageOf v)
  | bool inner, v => inner.imageOf v

/-- The values in the order of the store variable's domain. -/
def values (x : IntVar) (s : Store) : Except Fault (List Int) := do
  (← s.int x.index).values.mapM x.imageOf

/-- The first `count` of `values`. -/
def firstValues (x : IntVar) (s : Store) (count : Nat) : Except Fault (List Int) := do
  ((← s.int x.index).firstValues count).mapM x.imageOf

/-- The value at a position of `values`, and the lower bound beyond the last position. -/
def nth (x : IntVar) (s : Store) (i : Nat) : Except Fault Int := do
  match (← s.int x.index).nth? i with
  | some v => x.imageOf v
  | none => x.lower s

/-- The value in the middle of `values`, the earlier one of two. -/
def median (x : IntVar) (s : Store) : Except Fault Int := do
  x.nth s (((← x.size s) - 1) / 2)

/-- The restriction of `inner` that restricts the view `scale * inner + offset` as given. Bounds
are rounded towards the inside. -/
def pullOnce (scale offset : Int) (relation : Relation) (v : Int) :
    Except Fault (Option (Relation × Int)) := do
  match relation with
  | .equal | .notEqual => do
      let preimage ← preimage scale offset v
      return preimage.map fun w => (relation, w)
  | .atMost => do
      let difference ← Word.sub v offset
      if scale < 0 then return some (.atLeast, ← Word.ceilDiv difference scale)
      else return some (.atMost, ← Word.floorDiv difference scale)
  | .atLeast => do
      let difference ← Word.sub v offset
      if scale < 0 then return some (.atMost, ← Word.floorDiv difference scale)
      else return some (.atLeast, ← Word.ceilDiv difference scale)

/-- The restriction of the store variable that restricts `x` as given. A value without a preimage
cannot be taken, and need not be removed. -/
def pull : IntVar → Relation → Int → Except Fault Pulled
  | root index, relation, v => return .root index relation v
  | affine inner scale offset, relation, v => do
      match ← pullOnce scale offset relation v with
      | some (relation, w) => inner.pull relation w
      | none => return if relation = .equal then .never else .always
  | bool inner, relation, v => inner.pull relation v

/-- Narrow the store variable behind `x` to the values whose image stands in the relation to
`v`. -/
def restrict (x : IntVar) (relation : Relation) (v : Int) (s : Store) :
    Except Fault (Event × Store) := do
  match ← x.pull relation v with
  | .root index relation w => s.narrowInt index (·.restrict relation w)
  | .never => return (.failed, s)
  | .always => return (.none, s)

end IntVar

end ConstraintSearch
