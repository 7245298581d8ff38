import ConstraintSearch.Propagator.Basic

/-!
# Disequations and inequations between two variables

* `NotEquals.run` waits until one variable is fixed and removes its partner value from the other;
* `LessOrEqual.run` and `FloatAtMost.run` push the bounds of two variables towards each other.
-/

namespace ConstraintSearch

/-- One run of `a ≠ b + offset`. -/
def NotEquals.run (a b : IntVar) (offset : Int) : Propagation (Verdict Propagator) := do
  match ← Propagation.reading a.value? with
  | some v =>
      let partner ← Word.sub v offset
      let _ ← Propagation.remove b partner
      return .subsumed
  | none =>
      match ← Propagation.reading b.value? with
      | some v =>
          let partner ← Word.add v offset
          let _ ← Propagation.remove a partner
          return .subsumed
      | none => return .fix

/-- One run of `a + offset ≤ b`. -/
def LessOrEqual.run (a b : IntVar) (offset : Int) : Propagation (Verdict Propagator) := do
  let upper ← Word.sub (← Propagation.reading b.upper) offset
  let _ ← Propagation.setUpper a upper
  let lower ← Word.add (← Propagation.reading a.lower) offset
  let _ ← Propagation.setLower b lower
  let greatest ← Word.add (← Propagation.reading a.upper) offset
  let least ← Propagation.reading b.lower
  return if greatest ≤ least then .subsumed else .fix

/-- One run of `a ≤ b` for float variables. -/
def FloatAtMost.run (a b : Nat) : Propagation (Verdict Propagator) := do
  let upper := (← Propagation.reading (·.float b)).upper
  let _ ← Propagation.setFloatUpper a upper
  let lower := (← Propagation.reading (·.float a)).lower
  let _ ← Propagation.setFloatLower b lower
  let greatest := (← Propagation.reading (·.float a)).upper
  let least := (← Propagation.reading (·.float b)).lower
  return if greatest ≤ least then .subsumed else .fix

end ConstraintSearch
