import ConstraintSearch.Propagator.Basic

/-!
# The cardinality of a set

The cardinality bounds of a set and the bounds of an integer variable are pushed towards each other
until the set no longer changes.
-/

namespace ConstraintSearch.SetCardinality

/-- Push the bounds of the variable onto the set, and those of the set onto the variable. Returns
whether the set was changed. -/
def exchange (set : Nat) (cardinality : IntVar) : Propagation Bool := do
  let least := (← Propagation.reading cardinality.lower).toNat
  let greatest := (← Propagation.reading cardinality.upper).toNat
  let event ← Propagation.setCardinality set least greatest
  let d ← Propagation.reading (·.set set)
  let _ ← Propagation.setLower cardinality d.cardMin
  let _ ← Propagation.setUpper cardinality d.cardMax
  return event.isModified

/-- Exchange bounds until the set is not changed. -/
def exchangeAll (set : Nat) (cardinality : IntVar) : Nat → Propagation Unit
  | 0 => throwThe Fault .unfinished
  | passes + 1 => do
      if ← exchange set cardinality then exchangeAll set cardinality passes

/-- One run of "the set has `cardinality` elements". -/
def run (set : Nat) (cardinality : IntVar) : Propagation (Verdict Propagator) := do
  let passes := match (← get).store.sets.get? set with
    | some d => d.freedom + 1
    | none => 1
  exchangeAll set cardinality passes
  let d ← Propagation.reading (·.set set)
  return if d.isAssigned then .subsumed else .fix

end ConstraintSearch.SetCardinality
