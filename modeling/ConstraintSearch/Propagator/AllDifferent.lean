import ConstraintSearch.Propagator.Basic

/-!
# Distinct values

Once a variable is fixed, its value is removed from all other variables. Each variable is processed
once; the first fixed one that is not processed comes first. With two open variables left the
constraint becomes a disequation, with none it holds.
-/

namespace ConstraintSearch

/-- The first `count` variables that are not fixed. -/
def firstOpen (s : Store) : List IntVar → Nat → Except Fault (List IntVar)
  | [], _ => return []
  | _ :: _, 0 => return []
  | x :: xs, count + 1 => do
      if ← x.isFixed s then firstOpen s xs (count + 1)
      else return x :: (← firstOpen s xs count)

namespace AllDifferent

/-- The position and the value of the first fixed variable that is not marked, counted from
`position`. -/
def firstFixed? (s : Store) : List (IntVar × Bool) → Nat → Except Fault (Option (Nat × Int))
  | [], _ => return none
  | (_, true) :: rest, position => firstFixed? s rest (position + 1)
  | (x, false) :: rest, position => do
      match ← x.value? s with
      | some v => return some (position, v)
      | none => firstFixed? s rest (position + 1)

/-- Remove `v` from the variables other than the one at `position`. -/
def removeFromOthers (position : Nat) (v : Int) (vars : List (IntVar × Bool)) :
    Propagation Unit :=
  vars.zipIdx.forM fun ((x, _), i) => do
    if i ≠ position then discard <| Propagation.remove x v

/-- Process fixed variables until there is none left. -/
def process : Nat → List (IntVar × Bool) → Propagation (List (IntVar × Bool))
  | 0, _ => throwThe Fault .unfinished
  | steps + 1, vars => do
      match ← Propagation.reading (firstFixed? · vars 0) with
      | none => return vars
      | some (position, v) =>
          removeFromOthers position v vars
          process steps (vars.modify position fun x => (x.1, true))

/-- One run of the constraint. Returns the marks as well. -/
def run (vars : List (IntVar × Bool)) :
    Propagation (Propagator × Verdict Propagator) := do
  let vars ← process (vars.length + 1) vars
  match ← Propagation.reading (firstOpen · (vars.map (·.1)) 3) with
  | [] => return (.allDifferent vars, .subsumed)
  | [a, b] => return (.allDifferent vars, .replace (.notEquals a b 0))
  | _ => return (.allDifferent vars, .fix)

end AllDifferent

end ConstraintSearch
