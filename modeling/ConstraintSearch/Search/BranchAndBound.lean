import ConstraintSearch.Search.Explorer
import ConstraintSearch.Search.Outcome

/-!
# Branch and bound

A depth-first search that reports solutions of increasing quality: once a solution is found, only
better ones are looked for. The nodes on the path are constrained when they are used again.
-/

namespace ConstraintSearch

structure BranchAndBound (σ : Type) where
  explorer : Explorer
  best : Option Space
  /-- The depth from which on the copies on the path were made after the best solution was found. -/
  mark : Nat
  stop : σ

namespace BranchAndBound

variable {σ : Type} [StopCondition σ]

/-- A search of the tree below a root. -/
def start (root : Space) (exploration : Exploration) (tracing : Tracing) (stop : σ) :
    Journaled (BranchAndBound σ) := do
  return ⟨← (Explorer.ofExploration exploration tracing).start root, none, 0, stop⟩

def bound (b : BranchAndBound σ) : Option Bound := b.best.map fun best => ⟨best, b.mark⟩

/-- Poll the stop condition and explore one node. -/
def step (b : BranchAndBound σ) : Journaled (Option Outcome × BranchAndBound σ) := do
  let (holds, stop) ← StopCondition.poll b.stop b.explorer.reported
  let b := { b with stop }
  if holds then return (some .stopped, b)
  let (node, explorer, bound) ← b.explorer.nextNode b.bound
  let b := { b with mark := (bound.map Bound.mark).getD b.mark }
  match node with
  | none => return (some .exhausted, { b with explorer })
  | some node =>
      let (explored, explorer) ← explorer.explore node
      match explored with
      | .solved s =>
          let statistics := explorer.statistics
          let statistics := { statistics with solutions := statistics.solutions + 1 }
          let explorer := { explorer with statistics }
          return (some (.solution s),
            { b with explorer, mark := explorer.path.length, best := some s })
      | .failed | .branched => return (none, { b with explorer })

/-- Search another tree for any solution; the statistics go on. -/
def reset (b : BranchAndBound σ) (root : Space) : Journaled (BranchAndBound σ) := do
  return { b with explorer := ← b.explorer.start root, best := none, mark := 0 }

/-- What the path says about the explored part of the tree. -/
def noGoods (b : BranchAndBound σ) : NoGoods × BranchAndBound σ :=
  let noGoods := b.explorer.path.noGoods
  let statistics := b.explorer.statistics
  let statistics := { statistics with noGoods := statistics.noGoods + noGoods.size }
  (noGoods, { b with explorer := { b.explorer with statistics } })

end BranchAndBound

end ConstraintSearch
