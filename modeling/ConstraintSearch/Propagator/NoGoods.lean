import ConstraintSearch.Propagator.Basic

/-!
# No-goods

The part of a search tree that was explored before a restart, kept as a constraint. The levels are
the nodes of a path from the root; as long as the branch taken at each level is taken again, the
explored branches of the next level are excluded too. A level is settled once its taken branch is.
-/

namespace ConstraintSearch.NoGoods

/-- Make the explored branches of a level false; one that is true is a conflict. -/
def excludeAll : List Literal → Propagation Unit
  | [] => return ()
  | literal :: literals => do
      match ← Propagation.reading literal.truth? with
      | some true => throw .conflict
      | some false => excludeAll literals
      | none => do
          literal.exclude
          excludeAll literals

/-- Settle levels, of which the first has number `start`, until one is open. Returns the number of
that level. -/
def settle : List NoGoodLevel → Nat → Propagation (Nat × Verdict Propagator)
  | [], start => return (start, .subsumed)
  | level :: levels, start => do
      excludeAll level.explored
      match level.taken with
      | none => return (start, .subsumed)
      | some taken =>
          match ← Propagation.reading taken.truth? with
          | some true => settle levels (start + 1)
          | some false => return (start, .subsumed)
          | none => return (start, .fix)

/-- One run of the no-goods. Returns the settled levels as well. -/
def run (levels : List NoGoodLevel) (start : Nat) :
    Propagation (Propagator × Verdict Propagator) := do
  let (start, verdict) ← settle (levels.drop start) start
  return (.noGoods levels start, verdict)

end ConstraintSearch.NoGoods
