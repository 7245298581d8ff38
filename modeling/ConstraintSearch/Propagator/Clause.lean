import ConstraintSearch.Propagator.AllDifferent

/-!
# Clauses

One of several Boolean variables is true. The last open variable of a clause without a true one is
made true.
-/

namespace ConstraintSearch.Clause

/-- One run of "one of `literals` is true". -/
def run (literals : List IntVar) : Propagation (Verdict Propagator) := do
  let satisfied ← literals.anyM fun x => return (← Propagation.reading x.value?) = some 1
  if satisfied then return .subsumed
  match ← Propagation.reading (firstOpen · literals 2) with
  | [] => throw .conflict
  | [unit] =>
      let _ ← Propagation.assign unit 1
      return .subsumed
  | _ => return .fix

end ConstraintSearch.Clause
