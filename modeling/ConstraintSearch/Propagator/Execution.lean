import ConstraintSearch.Propagator.Binary
import ConstraintSearch.Propagator.Linear
import ConstraintSearch.Propagator.Clause
import ConstraintSearch.Propagator.SetCardinality
import ConstraintSearch.Propagator.NoGoods

/-!
# Execution of propagators

`Propagator.run` runs a propagator that enforces a constraint, `Propagator.execute` any propagator
on a state. A run returns the propagator as it is after the run, and a verdict.
-/

namespace ConstraintSearch.Propagator

/-- One run of a propagator other than a scripted one. -/
def run (p : Propagator) : Propagation (Propagator × Verdict Propagator) := do
  match p with
  | notEquals a b offset => return (p, ← NotEquals.run a b offset)
  | lessOrEqual a b offset => return (p, ← LessOrEqual.run a b offset)
  | linearAtMost terms bound => return (p, ← Linear.runAtMost terms bound)
  | linearEqual terms total => return (p, ← Linear.runEqual terms total)
  | allDifferent vars => AllDifferent.run vars
  | clause literals => return (p, ← Clause.run literals)
  | setCardinality set cardinality => return (p, ← SetCardinality.run set cardinality)
  | floatAtMost a b => return (p, ← FloatAtMost.run a b)
  | noGoods levels start => NoGoods.run levels start
  | scripted _ _ => return (p, .fix)

/-- The verdict of a scripted propagator. -/
def replyVerdict : Reply → Verdict Propagator
  | .fix | .conflict => .fix
  | .noFix => .noFix
  | .subsumed => .subsumed
  | .replace script => .replace (scripted script 0)

/-- One run of a propagator on a state. -/
def execute (p : Propagator) (s : State) :
    Journaled (Except Inconsistency (Propagator × Verdict Propagator) × State) := do
  match p with
  | scripted script executions =>
      let (outcome, s) ← script.play (executions + 1) s
      return (outcome.map fun reply => (scripted script (executions + 1), replyVerdict reply), s)
  | p => (p.run s : Except Fault _)

/-- What a propagator reports when it is retired. -/
def retire (p : Propagator) : Journaled Unit :=
  match p with
  | scripted script _ => Journaled.note (.retired script.name)
  | _ => return ()

end ConstraintSearch.Propagator
