import ConstraintSearch.Propagator.Basic

/-!
# Linear constraints

The terms are variables or views, so that weights are part of the terms. Sums of bounds are exact
integers; a bound that is set on a term is clamped to the 32-bit values first.

* `Linear.runAtMost` cuts each upper bound to what the lower bounds of the other terms leave. No
  lower bound moves, so that one pass is enough;
* `Linear.runEqual` cuts both bounds of each term and repeats the pass until nothing changes. The
  sums are those at the start of the pass.
-/

namespace ConstraintSearch.Linear

/-- The sum of the bounds of the terms on one side. -/
def sum (side : Side) (s : Store) : List IntVar → Except Fault Int
  | [] => return 0
  | x :: xs => do
      let v ← x.bound s side
      return v + (← sum side s xs)

/-- The sums of the lower and of the upper bounds, read term by term. -/
def sums (s : Store) : List IntVar → Except Fault (Int × Int)
  | [] => return (0, 0)
  | x :: xs => do
      let lower ← x.lower s
      let upper ← x.upper s
      let (lowers, uppers) ← sums s xs
      return (lower + lowers, upper + uppers)

/-- Cut the upper bound of a term to its lower bound and the slack. -/
def cutUpper (slack : Int) (x : IntVar) : Propagation Unit := do
  let lower ← Propagation.reading x.lower
  discard <| Propagation.setUpper x (Word.clamp (lower + slack))

/-- One run of "the sum of the terms is at most `bound`". -/
def runAtMost (terms : List IntVar) (bound : Int) : Propagation (Verdict Propagator) := do
  let slack := bound - (← Propagation.reading (sum .lower · terms))
  if slack < 0 then throw .conflict
  terms.forM (cutUpper slack)
  let uppers ← Propagation.reading (sum .upper · terms)
  return if uppers ≤ bound then .subsumed else .fix

/-- Cut the bounds of one term to what the sums of the bounds leave of `total`. Returns whether the
term was changed. -/
def tightenTerm (total lowers uppers : Int) (x : IntVar) : Propagation Bool := do
  let lower ← Propagation.reading x.lower
  let upper ← Propagation.reading x.upper
  let cutUpper ← Propagation.setUpper x (Word.clamp (total - (lowers - lower)))
  let cutLower ← Propagation.setLower x (Word.clamp (total - (uppers - upper)))
  return cutUpper.isModified || cutLower.isModified

/-- One pass over the terms. Returns whether a term was changed. -/
def tighten (terms : List IntVar) (total : Int) : Propagation Bool := do
  let (lowers, uppers) ← Propagation.reading (sums · terms)
  if total < lowers ∨ uppers < total then throw .conflict
  terms.foldlM
    (fun changed x => return changed || (← tightenTerm total lowers uppers x))
    false

/-- Repeat the pass until it changes nothing. -/
def tightenAll (terms : List IntVar) (total : Int) : Nat → Propagation Unit
  | 0 => throwThe Fault .unfinished
  | passes + 1 => do
      if ← tighten terms total then tightenAll terms total passes

/-- The number of values of the terms, counted for each term. A pass that changes a term makes it
smaller. -/
def values (s : Store) (terms : List IntVar) : Nat :=
  total (fun x => ((s.ints.get? x.index).map IntDomain.size).getD 0) terms

/-- One run of "the sum of the terms is `total`". -/
def runEqual (terms : List IntVar) (total : Int) : Propagation (Verdict Propagator) := do
  let passes := values (← get).store terms
  tightenAll terms total (passes + 1)
  let fixed ← terms.allM fun x => Propagation.reading x.isFixed
  return if fixed then .subsumed else .fix

end ConstraintSearch.Linear
