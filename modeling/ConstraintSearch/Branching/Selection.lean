import ConstraintSearch.Branching.Choice

/-!
# Selection of variables and values

Which variable an integer brancher splits, and how.

* `VariableSelection.select` picks a position among the variables that are not fixed, searched from
  a first position on;
* `ValueSelection.select` picks the split of a variable.

A random selection carries its generator; a selection returns the selection to use next.
-/

namespace ConstraintSearch

/-- Which open variable is split. -/
inductive VariableSelection
  /-- The first one. -/
  | inputOrder
  /-- The first one with the fewest values. -/
  | firstFail
  /-- The first one with the most values. -/
  | antiFirstFail
  /-- The first one with the least lower bound. -/
  | smallest
  /-- The first one with the greatest upper bound. -/
  | largest
  /-- The first one with the most subscriptions. -/
  | maxDegree
  | random (generator : Generator)
  deriving DecidableEq, Repr

/-- How a variable is split. -/
inductive ValueSelection
  /-- Is it the least value? -/
  | min
  /-- Is it the greatest value? -/
  | max
  /-- Is it the value in the middle? -/
  | median
  /-- The half below the middle of the bounds, then the half above. -/
  | split
  /-- The half above the middle of the bounds, then the half below. -/
  | reverseSplit
  /-- Is it a random value? -/
  | random (generator : Generator)
  /-- Which value is it? -/
  | all
  deriving DecidableEq, Repr

/-- The first of several positions with the least key, among the variables that are not fixed. -/
def leastKey (s : Store) (key : IntVar → Except Fault Int) :
    List (IntVar × Nat) → Option (Nat × Int) → Except Fault (Option Nat)
  | [], best => return best.map (·.1)
  | (x, position) :: rest, best => do
      if ← x.isFixed s then leastKey s key rest best
      else
        let k ← key x
        match best with
        | none => leastKey s key rest (some (position, k))
        | some (_, least) =>
            leastKey s key rest (if k < least then some (position, k) else best)

/-- The positions of the variables that are not fixed. -/
def openPositions (s : Store) : List (IntVar × Nat) → Except Fault (List Nat)
  | [] => return []
  | (x, position) :: rest => do
      if ← x.isFixed s then openPositions s rest
      else return position :: (← openPositions s rest)

namespace VariableSelection

/-- The key by which a selection compares variables; the least key wins. -/
def key? (s : State) : VariableSelection → Option (IntVar → Except Fault Int)
  | firstFail => some fun x => return (← x.size s.store)
  | antiFirstFail => some fun x => return -(← x.size s.store)
  | smallest => some fun x => x.lower s.store
  | largest => some fun x => return -(← x.upper s.store)
  | maxDegree => some fun x => return -(s.watches.degree x.ref : Int)
  | inputOrder | random _ => none

/-- The position of the variable to split, among those from `start` on. -/
def select (s : State) (vars : Table IntVar) (start : Nat) (selection : VariableSelection) :
    Except Fault (Nat × VariableSelection) := do
  let candidates := (vars.toList.zipIdx).drop start
  match selection, selection.key? s with
  | .random generator, _ =>
      let positions ← openPositions s.store candidates
      let (i, generator) ← generator.index 0 positions.length
      return (positions[i]?.getD start, .random generator)
  | _, some key =>
      let position ← leastKey s.store key candidates none
      return (position.getD start, selection)
  | _, none => return (start, selection)

end VariableSelection

namespace ValueSelection

/-- The middle of the bounds, rounded down. -/
def middle (s : Store) (x : IntVar) : Except Fault Int := do
  let lower ← x.lower s
  let upper ← x.upper s
  return (lower + upper).fdiv 2

/-- The split of `x`. -/
def select (s : Store) (x : IntVar) (selection : ValueSelection) :
    Except Fault (Split × ValueSelection) := do
  match selection with
  | .min => return (.equal (← x.lower s), selection)
  | .max => return (.equal (← x.upper s), selection)
  | .median => return (.equal (← x.median s), selection)
  | .split => return (.atMost (← middle s x), selection)
  | .reverseSplit => return (.atLeast (← Word.add (← middle s x) 1), selection)
  | .random generator =>
      let (i, generator) ← generator.index 0 (← x.size s)
      return (.equal (← x.nth s i), .random generator)
  | .all => return (.values (← x.values s), selection)

end ValueSelection

end ConstraintSearch
