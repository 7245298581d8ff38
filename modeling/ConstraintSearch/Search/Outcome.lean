import ConstraintSearch.Space

/-!
# Outcomes of a search

A search engine works in steps, each of which explores at most one node. A step may end in an
outcome: a solution, the end of the tree, or a stop. `searchWithin` repeats steps up to an outcome.
-/

namespace ConstraintSearch

inductive Outcome
  | solution (s : Space)
  /-- The tree is exhausted. -/
  | exhausted
  /-- The stop condition holds. -/
  | stopped

/-- Repeat steps until one has an outcome, at most `steps` of them. -/
def searchWithin {ε : Type} (step : ε → Journaled (Option Outcome × ε)) :
    Nat → ε → Journaled (Outcome × ε)
  | 0, _ => throw .unfinished
  | steps + 1, e => do
      let (outcome, e) ← step e
      match outcome with
      | some outcome => return (outcome, e)
      | none => searchWithin step steps e

end ConstraintSearch
